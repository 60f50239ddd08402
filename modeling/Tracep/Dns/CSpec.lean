import Tracep.Dns.GoSpec

/-!
# What the C parser does with a layout

The C counterpart of `GoSpec`, one lemma for each function and each thing
it can find. The differences from the Go port are all in how values are
kept: names and texts go through bounded NUL-terminated buffers
(`rendering`), at most `maxAns` answers are kept (`addAll_answers`), and
the name inside RDATA is read where it is (`addAnswers_name`).
-/

namespace Tracep.Dns.C

open Exec

variable {ntop : InetNtop}

/-- How the C port shows values: texts up to 255 bytes and the first NUL. -/
def rendering (ntop : InetNtop) : Rendering := ⟨ntop.text, fun s => cstr (s.take 255)⟩

/-! ## Answers -/

/-- Add a list of answer values. -/
def DnsMsg.addAll (m : DnsMsg) (vs : List Bytes) : DnsMsg :=
  vs.foldl (fun m v => addAnswer m [] v) m

theorem addAnswer_answers (m : DnsMsg) (label val : Bytes) :
    (addAnswer m label val).answers
      = (m.answers ++ [snprintf 300 (label ++ val)]).take maxAns := by
  have hle := m.ans_le
  unfold addAnswer
  split
  · rw [List.take_append_of_le_length (by omega), List.take_of_length_le hle]
  · rw [List.take_of_length_le (by rw [List.length_append, List.length_singleton]; omega)]

/-- Everything but the answers stays as it is. -/
theorem addAnswer_header (m : DnsMsg) (label val : Bytes) :
    (addAnswer m label val).id = m.id ∧ (addAnswer m label val).flags = m.flags
      ∧ (addAnswer m label val).qtype = m.qtype
      ∧ (addAnswer m label val).question = m.question := by
  unfold addAnswer
  split <;> exact ⟨rfl, rfl, rfl, rfl⟩

theorem addAll_header (vs : List Bytes) : ∀ m : DnsMsg,
    (m.addAll vs).id = m.id ∧ (m.addAll vs).flags = m.flags
      ∧ (m.addAll vs).qtype = m.qtype ∧ (m.addAll vs).question = m.question := by
  induction vs with
  | nil => exact fun _ => ⟨rfl, rfl, rfl, rfl⟩
  | cons v vs ih =>
      intro m
      obtain ⟨h1, h2, h3, h4⟩ := ih (addAnswer m [] v)
      obtain ⟨g1, g2, g3, g4⟩ := addAnswer_header m [] v
      exact ⟨h1.trans g1, h2.trans g2, h3.trans g3, h4.trans g4⟩

/-- Of a list of values the first ones are kept, up to `maxAns` answers in all. -/
theorem addAll_answers (vs : List Bytes) : ∀ m : DnsMsg,
    (m.addAll vs).answers = (m.answers ++ vs.map (snprintf 300)).take maxAns := by
  induction vs with
  | nil => exact fun m => by simpa [DnsMsg.addAll] using (List.take_of_length_le m.ans_le).symm
  | cons v vs ih =>
      intro m
      have h := ih (addAnswer m [] v)
      have hcons : m.answers ++ (v :: vs).map (snprintf 300)
          = (m.answers ++ [snprintf 300 v]) ++ vs.map (snprintf 300) := by simp
      rw [addAnswer_answers, List.nil_append] at h
      rw [show m.addAll (v :: vs) = (addAnswer m [] v).addAll vs from rfl, h, hcons]
      generalize m.answers ++ [snprintf 300 v] = a
      rcases Nat.le_total a.length maxAns with hle | hge
      · rw [List.take_of_length_le hle]
      · rw [List.take_append_of_le_length (by rw [List.length_take]; omega), List.take_take,
          Nat.min_self, List.take_append_of_le_length hge]

@[simp] theorem addAll_nil (m : DnsMsg) : m.addAll [] = m := rfl

@[simp] theorem addAll_addAll (m : DnsMsg) (vs ws : List Bytes) :
    (m.addAll vs).addAll ws = m.addAll (vs ++ ws) := by
  rw [DnsMsg.addAll, DnsMsg.addAll, DnsMsg.addAll, List.foldl_append]

/-! ## RDATA -/

section AddName

variable {d label : Bytes} {p : Nat} {nm : NameBuf} {m : DnsMsg}

theorem addName_of_nameAt {L : List Bytes} (hL : NameAt d p L) :
    (addName d p nm label m).Returns
      (m.addAll [label ++ (rendering ntop).text (dotted L)]) := by
  obtain ⟨n, hn⟩ := hL.fieldEnd
  obtain ⟨b, hr, hread⟩ := readName_buf nm hL hn
  rw [addName, hr.bind_iff]
  simp only
  rw [if_pos (Int.natCast_nonneg n), Option.getD_some, hread, pure_bind]
  exact returns_pure.mpr rfl

theorem addName_of_broken (hres : ¬Resolves d p) (hloop : ¬Looping d p) :
    (addName d p nm label m).Returns m := by
  obtain ⟨buf, hr⟩ := readName_fails (nameBuf_dst nm) hres hloop
  simp only [Nat.cast_ofNat] at hr
  rw [addName, hr.bind_iff]
  exact returns_pure.mpr rfl

theorem addName_hangs (hloop : Looping d p) : (addName d p nm label m).Hangs :=
  ((readName_hangs_iff (nameBuf_dst nm)).mpr hloop).bind _

end AddName

/-- The TXT loop cuts the next character-string off what is left of the RDATA. -/
theorem txtStep_eq {d : Bytes} {rd rdlen : Nat} (hle : rd + rdlen ≤ d.length) (p : Nat)
    (m : DnsMsg) :
    txtStep d rd rdlen (p, m) = pure (match charString (((d.drop rd).take rdlen).drop p) with
      | none => .inr m
      | some (t, _) => .inl ((p + 1 + t.length : Nat), addAnswer m [] (cstr t))) := by
  rw [txtStep]
  by_cases hp : p < rdlen
  · have hlen : ((d.drop rd).take rdlen).length = rdlen := length_take_drop (by omega)
    have hcons : ((d.drop rd).take rdlen).drop p
        = d[rd + p] :: ((d.drop (rd + p + 1)).take (rdlen - (p + 1))) := by
      rw [List.drop_eq_getElem_cons (by omega), List.getElem_take, List.getElem_drop,
        List.drop_take, List.drop_drop]
      rfl
    have hrest : ((d.drop (rd + p + 1)).take (rdlen - (p + 1))).length = rdlen - (p + 1) :=
      length_take_drop (by omega)
    have hidx := index_eq (List.getElem?_eq_getElem (show rd + p < d.length by omega))
    push_cast at hidx
    have hbyte := (d[rd + p]).toNat_lt
    simp only
    rw [if_pos (by omega), hidx, pure_bind, hcons, charString, hrest]
    by_cases hfit : (d[rd + p]).toNat ≤ rdlen - (p + 1)
    · have hslice := slice_eq (d := d) (i := (rd : Int) + ((p : Int) + 1))
        (j := (rd : Int) + ((p : Int) + 1) + (d[rd + p]).toNat) (rd + p + 1) (d[rd + p]).toNat
        (by push_cast; omega) rfl (by omega)
      have htake : ((d.drop (rd + p + 1)).take (rdlen - (p + 1))).take (d[rd + p]).toNat
          = (d.drop (rd + p + 1)).take (d[rd + p]).toNat := by
        rw [List.take_take, Nat.min_eq_left hfit]
      have htlen : ((d.drop (rd + p + 1)).take (d[rd + p]).toNat).length
          = (d[rd + p]).toNat := length_take_drop (by omega)
      rw [if_neg (by omega), if_pos hfit, if_pos (by omega), hslice, pure_bind,
        cstr_append_nul]
      simp only [htake, htlen]
      push_cast
      rfl
    · rw [if_pos (by omega), if_neg hfit]
  · have hnil : ((d.drop rd).take rdlen).drop p = [] :=
      List.drop_eq_nil_of_le (by rw [List.length_take]; omega)
    simp only
    rw [if_neg (by omega), hnil]
    rfl

theorem charString_rest {s t rest : Bytes} (h : charString s = some (t, rest)) :
    rest = s.drop (1 + t.length) ∧ t.length < 256 := by
  cases s with
  | nil => cases h
  | cons l r =>
      rw [charString] at h
      split at h
      · rename_i hle
        obtain ⟨rfl, rfl⟩ := Prod.mk.inj (Option.some.inj h)
        have hlen : (r.take l.toNat).length = l.toNat := by
          rw [List.length_take]
          omega
        have := l.toNat_lt
        rw [hlen, Nat.add_comm, List.drop_succ_cons]
        exact ⟨rfl, by omega⟩
      · cases h

/-- The TXT loop adds the character-strings. -/
theorem txt_loop {d : Bytes} {rd rdlen : Nat} (hle : rd + rdlen ≤ d.length) (m : DnsMsg) :
    (loop (txtStep d rd rdlen) (0, m)).Returns
      (m.addAll ((charStrings ((d.drop rd).take rdlen)).map (rendering ntop).text)) := by
  rw [DnsMsg.addAll, List.foldl_map]
  refine charStringFraming.loop_frames
    (fun s str acc => ∃ p : Nat, s = ((p : Int), acc) ∧ str = ((d.drop rd).take rdlen).drop p)
    (fun m t => addAnswer m [] ((rendering ntop).text t)) ?_ ?_ ⟨0, rfl, rfl⟩
  · rintro _ _ m ⟨p, rfl, rfl⟩ hnext
    have hc : charString (((d.drop rd).take rdlen).drop p) = none := hnext
    rw [txtStep_eq hle, hc]
    exact returns_pure.mpr rfl
  · rintro _ _ m t rest ⟨p, rfl, rfl⟩ hnext
    have hc : charString (((d.drop rd).take rdlen).drop p) = some (t, rest) := hnext
    obtain ⟨hrest, hlt⟩ := charString_rest hc
    rw [List.drop_drop, ← Nat.add_assoc] at hrest
    have htext : (rendering ntop).text t = cstr t := by
      rw [rendering]
      simp only
      rw [List.take_of_length_le (by omega)]
    refine ⟨(((p + 1 + t.length : Nat) : Int), addAnswer m [] (cstr t)), ?_, _, ?_, hrest⟩
    · rw [Next, txtStep_eq hle, hc]
      exact returns_pure.mpr rfl
    · rw [htext]

/-- Every branch that reads a name reads it where the record carries it. -/
theorem addAnswers_name {rtype : UInt16} {rdlen k : Nat} (h : nameSkip rtype rdlen = some k)
    (d : Bytes) (rdoff : Int) (nm : NameBuf) (m : DnsMsg) :
    addAnswers ntop d rtype rdlen rdoff nm m
      = addName d (rdoff + k) nm (namePrefix rtype) m := by
  rcases nameSkip_eq_some h with ⟨rfl | rfl | rfl, rfl⟩ | ⟨rfl, hlt, rfl⟩ | ⟨rfl, hlt, rfl⟩ <;>
    simp [addAnswers, namePrefix, *]

theorem addAnswers_plain {r : Record} {d : Bytes} (h : r.nameOff = none)
    (hstop : r.stop ≤ d.length) (nm : NameBuf) (m : DnsMsg) :
    (addAnswers ntop d r.rtype r.rdlen r.rdoff nm m).Returns
      (m.addAll (plainValues (rendering ntop) r.rtype (r.rdata d))) := by
  obtain ⟨rtype, rdoff, rdlen⟩ := r
  have hlen := Record.rdata_length hstop
  simp only [Record.stop, Record.nameOff, Option.map_eq_none_iff] at h hstop hlen
  have haddr : ∀ l : Nat, rdlen = l → (do
      let rd ← slice d rdoff ((rdoff : Int) + l)
      return addAnswer m [] (ntop.text rd) : Exec DnsMsg).Returns
        (m.addAll [ntop.text ((d.drop rdoff).take rdlen)]) := by
    rintro l rfl
    rw [slice_eq rdoff rdlen rfl rfl hstop, pure_bind]
    exact returns_pure.mpr rfl
  simp only [plainValues, hlen]
  simp only [Record.rdata]
  by_cases h1 : rtype = 1
  · subst h1
    by_cases h4 : rdlen = 4
    · have := haddr 4 h4
      simp only [addAnswers, h4, ↓reduceIte, rendering, Nat.cast_ofNat] at this ⊢
      exact this
    · simp [addAnswers, h4, show ¬((rdlen : Int) = 4) by omega]
  by_cases h28 : rtype = 28
  · subst h28
    by_cases h16 : rdlen = 16
    · have := haddr 16 h16
      simp only [addAnswers, h16, ↓reduceIte, rendering, Nat.cast_ofNat] at this ⊢
      exact this
    · simp [addAnswers, h16, show ¬((rdlen : Int) = 16) by omega]
  by_cases h16 : rtype = 16
  · subst h16
    simpa [addAnswers] using txt_loop hstop m
  have hvals : ∀ rd : Bytes,
      (if rtype = 1 then (if rdlen = 4 then [(rendering ntop).addr rd] else [])
        else if rtype = 28 then (if rdlen = 16 then [(rendering ntop).addr rd] else [])
        else if rtype = 16 then (charStrings rd).map (rendering ntop).text else []) = [] := by
    simp [h1, h28, h16]
  rw [hvals, addAll_nil]
  obtain ⟨⟨h5, h12, h2⟩, h15, h33⟩ := nameSkip_eq_none h
  by_cases hmx : rtype = 15
  · simp [addAnswers, h15 hmx, hmx]
  by_cases hsrv : rtype = 33
  · simp [addAnswers, h33 hsrv, hsrv]
  simp [addAnswers, *]

/-! ## The answer loop -/

section Answers

variable {junk : Nat → NameBuf} {d : Bytes} {p : Nat} {m : DnsMsg}

/-- The owner name of a record is skipped without being kept. -/
theorem readName_skip {L : List Bytes} {e : Nat} (hL : NameAt d p L) (he : FieldEnd d p e) :
    ∃ buf, (readName d p none 0).Returns ((e : Int), buf) := by
  obtain ⟨buf, -, hr, -⟩ := readName_of_nameAt (p := p) null_dst hL he
  exact ⟨buf, hr⟩

/-- A record that is there is handed to `addAnswers`, at its RDATA. -/
theorem parseAnswers_record {r : Record} (h : RecordAt d p r) (n : Nat) :
    Same (parseAnswers ntop junk d (n + 1) p m)
      (addAnswers ntop d r.rtype r.rdlen r.rdoff (junk n) m
        >>= fun m => parseAnswers ntop junk d n r.stop m) := by
  obtain ⟨L, e, hL, he, rfl, hstop⟩ := h
  obtain ⟨buf, hr⟩ := readName_skip hL he
  simp only [Record.stop] at hstop
  rw [parseAnswers]
  refine (hr.same_bind _).trans ?_
  have h8 := be16At_eq (d := d) (p := e + 8) (by omega)
  push_cast at h8
  simp only
  rw [if_neg (by omega), if_neg (by omega), be16At_eq (by omega), pure_bind, h8, pure_bind,
    if_neg (by omega)]
  have hoff : (e : Int) + 8 + 2 = ((e + 10 : Nat) : Int) := by push_cast; omega
  simp only [hoff, Record.stop, ← Nat.cast_add]
  exact Same.refl _

/-- Without a record the section ends. -/
theorem parseAnswers_stop (hloop : ¬Looping d p) (h : ∀ r, ¬RecordAt d p r) (n : Nat) :
    (parseAnswers ntop junk d (n + 1) p m).Returns m := by
  rw [parseAnswers]
  by_cases hres : Resolves d p
  · obtain ⟨L, hL⟩ := hres
    obtain ⟨e, he⟩ := hL.fieldEnd
    obtain ⟨buf, hr⟩ := readName_skip hL he
    rw [hr.bind_iff]
    simp only
    rw [if_neg (by omega)]
    by_cases hfix : e + 10 ≤ d.length
    · have h8 := be16At_eq (d := d) (p := e + 8) (by omega)
      push_cast at h8
      rw [if_neg (by omega), be16At_eq (by omega), pure_bind, h8, pure_bind]
      by_cases hrd : e + 10 + (word d (e + 8)).toNat ≤ d.length
      · exact absurd ⟨L, e, hL, he, rfl, hrd⟩ (h _)
      · rw [if_pos (by omega)]
        exact returns_pure.mpr rfl
    · rw [if_pos (by omega)]
      exact returns_pure.mpr rfl
  · obtain ⟨buf, hr⟩ := readName_fails (p := p) null_dst hres hloop
    simp only [Nat.cast_zero] at hr
    rw [hr.bind_iff]
    exact returns_pure.mpr rfl

theorem parseAnswers_hangs (hloop : Looping d p) (n : Nat) :
    (parseAnswers ntop junk d (n + 1) p m).Hangs := by
  rw [parseAnswers]
  exact ((readName_hangs_iff null_dst).mpr hloop).bind _

end Answers

/-! ## The question loop -/

section Questions

variable {junk : Nat → NameBuf} {d : Bytes} {p i : Nat} {m : DnsMsg}

/-- The first question is kept, as much of its name as fits. -/
def DnsMsg.ask (m : DnsMsg) (i : Nat) (q : List Bytes × UInt16) : DnsMsg :=
  if i = 0 then { m with question := cstr ((dotted q.1).take 255), qtype := q.2 } else m

theorem cstr_length_le (s : Bytes) : (cstr s).length ≤ s.length :=
  (List.takeWhile_prefix _).length_le

theorem parseQuestions_question {q : List Bytes × UInt16} {stop : Nat}
    (h : QuestionAt d p q stop) (n : Nat) :
    Same (parseQuestions junk d (n + 1) i p m)
      (parseQuestions junk d n (i + 1) stop (m.ask i q)) := by
  obtain ⟨L, t⟩ := q
  obtain ⟨e, hL, he, ht, rfl, hle⟩ := h
  simp only at ht hL
  obtain ⟨b, hr, hread⟩ := readName_buf (junk i) hL he
  rw [parseQuestions]
  refine (hr.same_bind _).trans ?_
  simp only
  rw [if_neg (by omega), if_neg (by omega), be16At_eq (by omega), pure_bind, Option.getD_some,
    hread, DnsMsg.ask, ht]
  have hoff : (e : Int) + 4 = ((e + 4 : Nat) : Int) := by push_cast; rfl
  have hfit : snprintf 256 (cstr ((dotted L).take 255)) = cstr ((dotted L).take 255) := by
    refine List.take_of_length_le ?_
    have := cstr_length_le ((dotted L).take 255)
    rw [List.length_take] at this
    omega
  simp only [hoff, pure_bind, hfit]
  split <;> exact Same.refl _

theorem parseQuestions_stop (hloop : ¬Looping d p)
    (h : ∀ q stop, ¬QuestionAt d p q stop) (n : Nat) :
    (parseQuestions junk d (n + 1) i p m).Returns none := by
  rw [parseQuestions]
  by_cases hres : Resolves d p
  · obtain ⟨L, hL⟩ := hres
    obtain ⟨e, he⟩ := hL.fieldEnd
    obtain ⟨b, hr, -⟩ := readName_buf (junk i) hL he
    rw [hr.bind_iff]
    simp only
    rw [if_neg (by omega)]
    by_cases hle : e + 4 ≤ d.length
    · exact absurd ⟨e, hL, he, rfl, rfl, hle⟩ (h (L, word d e) (e + 4))
    · rw [if_pos (by omega)]
      exact returns_pure.mpr rfl
  · obtain ⟨buf, hr⟩ := readName_fails (nameBuf_dst (junk i)) hres hloop
    simp only [Nat.cast_ofNat] at hr
    rw [hr.bind_iff]
    exact returns_pure.mpr rfl

theorem parseQuestions_hangs (hloop : Looping d p) (n : Nat) :
    (parseQuestions junk d (n + 1) i p m).Hangs := by
  rw [parseQuestions]
  exact ((readName_hangs_iff (nameBuf_dst (junk i))).mpr hloop).bind _

end Questions

/-! ## Whole calls -/

theorem parseDns_short {stack : Stack} {d : Bytes} (h : d.length < 12) :
    parseDns ntop stack d = pure none := by
  rw [parseDns, if_pos h]

/-- The message the header starts. -/
def DnsMsg.start (d : Bytes) : DnsMsg := ⟨word d 0, word d 2, 0, [], [], Nat.zero_le _⟩

/-- The header read, a call is its two loops. -/
theorem parseDns_eq {stack : Stack} {d : Bytes} (h : 12 ≤ d.length) :
    parseDns ntop stack d
      = parseQuestions stack.name d (word d 4).toNat 0 12 (DnsMsg.start d) >>= fun
          | none => pure none
          | some (off, m) =>
              parseAnswers ntop stack.nm d (word d 6).toNat off m
                >>= fun m => pure (some m) := by
  have h0 := be16At_eq (d := d) (p := 0) (by omega)
  have h2 := be16At_eq (d := d) (p := 2) (by omega)
  have h4 := be16At_eq (d := d) (p := 4) (by omega)
  have h6 := be16At_eq (d := d) (p := 6) (by omega)
  push_cast at h0 h2 h4 h6
  rw [parseDns, if_neg (by omega), h0, h2, h4, h6]
  rfl

end Tracep.Dns.C
