import Tracep.Dns.Message

/-!
# Encoding messages

Messages as a sender builds them, and their bytes: names as labels that
may end in a compression pointer, questions, answers of the types both
ports know or of any other type. A `Message` carries the proofs that its
counts and lengths fit their fields and that every pointer leads to a place
where the message spells the rest of the name; a name written earlier is
such a place (`Name.nameAt`).

The bytes of a message are a whole message in the sense of `Message`, with
the questions, records and values one expects (`Message.whole`,
`Message.allValues`); this is all later modules need about them.
-/

namespace Tracep.Dns.Wire

/-! ## Names -/

/-- A label: 1 to 63 bytes. -/
abbrev Label := {t : Bytes // 0 < t.length ∧ t.length < 64}

def encodeLabel (t : Label) : Bytes := UInt8.ofNat t.1.length :: t.1

/-- A name as it is written: labels, and possibly a pointer to where the rest is spelled. -/
structure Name where
  labels : List Label
  pointer : Option (Fin 16384 × List Bytes)

/-- The two bytes of a compression pointer. -/
def encodePointer (t : Fin 16384) : Bytes :=
  [UInt8.ofNat (192 + t.1 / 256), UInt8.ofNat (t.1 % 256)]

namespace Name

def ending (n : Name) : Bytes :=
  match n.pointer with
  | none => [0]
  | some (t, _) => encodePointer t

def encode (n : Name) : Bytes := n.labels.flatMap encodeLabel ++ n.ending

/-- All the labels of the name. -/
def spelled (n : Name) : List Bytes :=
  n.labels.map (·.1) ++ match n.pointer with
    | none => []
    | some (_, rest) => rest

/-- The pointer, if there is one, leads to a place in `d` that spells the rest. -/
def Fits (d : Bytes) (n : Name) : Prop :=
  ∀ t rest, n.pointer = some (t, rest) → NameAt d t.1 rest

end Name

theorem itemAt_label {d : Bytes} {p : Nat} {t : Label} (h : At d p (encodeLabel t)) :
    itemAt d p = .label t.1 := by
  obtain ⟨t, hpos, hlt⟩ := t
  have hl := h.getElem? (i := 0) (by simp [encodeLabel])
  obtain ⟨-, hrest⟩ := At.append_iff (s := [UInt8.ofNat t.length]).mp h
  simp only [encodeLabel, List.getElem?_cons_zero, Nat.add_zero, List.length_singleton] at hl hrest
  have hnat : (UInt8.ofNat t.length).toNat = t.length := by simp; omega
  have hclear : t.length &&& 0xC0 = 0 := (top_bits_clear ⟨t.length, by omega⟩).mpr hlt
  rw [itemAt, hl]
  simp only [hnat, hclear]
  rw [if_neg (by omega), if_neg (by decide), if_pos trivial, if_pos hrest.le, hrest.eq]

theorem itemAt_root {d : Bytes} {p : Nat} (h : At d p [0]) : itemAt d p = .root := by
  have h0 := h.getElem? (i := 0) (by simp)
  simp only [Nat.add_zero, List.getElem?_cons_zero] at h0
  rw [itemAt, h0]
  rfl

theorem itemAt_pointer {d : Bytes} {p : Nat} {t : Fin 16384} (h : At d p (encodePointer t)) :
    itemAt d p = .pointer t.1 := by
  have hlt := t.2
  have h0 := h.getElem? (i := 0) (by simp [encodePointer])
  have h1 := h.getElem? (i := 1) (by simp [encodePointer])
  simp only [encodePointer, Nat.add_zero, List.getElem?_cons_zero, List.getElem?_cons_succ]
    at h0 h1
  have hhi : (UInt8.ofNat (192 + t.1 / 256)).toNat = 192 + t.1 / 256 := by simp; omega
  have hset := (top_bits_set ⟨192 + t.1 / 256, by omega⟩).mpr (by simp)
  have htarget : target (UInt8.ofNat (192 + t.1 / 256)) (UInt8.ofNat (t.1 % 256)) = t.1 := by
    rw [target, UInt16.toNat_and, be16_toNat, hhi]
    have hmod := Nat.and_two_pow_sub_one_eq_mod ((192 + t.1 / 256) * 256 + t.1 % 256) 14
    simp only [UInt8.toNat_ofNat', UInt16.toNat_ofNat] at hmod ⊢
    norm_num at hmod ⊢
    omega
  rw [itemAt, h0]
  simp only [hhi, hset, h1, htarget]
  rw [if_neg (by omega), if_pos trivial]

/-- An encoded name is a name where it is written, and its field ends with it. -/
theorem Name.nameAt {d : Bytes} {n : Name} (hfits : n.Fits d) :
    ∀ {p : Nat}, At d p n.encode →
      NameAt d p n.spelled ∧ FieldEnd d p (p + n.encode.length) := by
  obtain ⟨labels, pointer⟩ := n
  induction labels with
  | nil =>
      intro p h
      cases pointer with
      | none =>
          have hroot := itemAt_root h
          exact ⟨.root hroot, .root hroot⟩
      | some tr =>
          obtain ⟨t, rest⟩ := tr
          have hptr := itemAt_pointer h
          exact ⟨.pointer hptr (hfits t rest rfl), .pointer hptr⟩
  | cons l labels ih =>
      intro p h
      have henc : Name.encode ⟨l :: labels, pointer⟩
          = encodeLabel l ++ Name.encode ⟨labels, pointer⟩ := by
        simp [Name.encode, Name.ending]
      rw [henc] at h ⊢
      obtain ⟨hl, hrest⟩ := At.append_iff.mp h
      have hlen : p + (encodeLabel l).length = p + 1 + l.1.length := by
        rw [encodeLabel, List.length_cons]
        omega
      have hitem := itemAt_label hl
      obtain ⟨hname, hend⟩ := ih hfits (hlen ▸ hrest)
      refine ⟨.label hitem hname, .label hitem ?_⟩
      rwa [List.length_append, ← Nat.add_assoc, hlen]

theorem Name.encode_pos (n : Name) : 0 < n.encode.length := by
  obtain ⟨labels, _ | ⟨t, rest⟩⟩ := n <;>
    simp [Name.encode, Name.ending, encodePointer]

/-! ## Questions and answers -/

structure Question where
  name : Name
  qtype : UInt16
  qclass : UInt16

def Question.encode (q : Question) : Bytes :=
  q.name.encode ++ (be16Bytes q.qtype ++ be16Bytes q.qclass)

/-- The record types both ports know. -/
def knownTypes : List UInt16 := [1, 2, 5, 12, 15, 16, 28, 33]

/-- A character-string: its length and its bytes. -/
def encodeString (s : {s : Bytes // s.length < 256}) : Bytes := UInt8.ofNat s.1.length :: s.1

inductive Rdata where
  | a (ip : {b : Bytes // b.length = 4})
  | aaaa (ip : {b : Bytes // b.length = 16})
  | cname (n : Name)
  | ns (n : Name)
  | ptr (n : Name)
  | mx (preference : UInt16) (n : Name)
  | srv (priority weight port : UInt16) (n : Name)
  | txt (strings : List {s : Bytes // s.length < 256})
  | other (rtype : {t : UInt16 // t ∉ knownTypes}) (data : Bytes)

namespace Rdata

def rtype : Rdata → UInt16
  | .a _ => 1
  | .aaaa _ => 28
  | .cname _ => 5
  | .ns _ => 2
  | .ptr _ => 12
  | .mx _ _ => 15
  | .srv _ _ _ _ => 33
  | .txt _ => 16
  | .other t _ => t.1

def encode : Rdata → Bytes
  | .a ip => ip.1
  | .aaaa ip => ip.1
  | .cname n => n.encode
  | .ns n => n.encode
  | .ptr n => n.encode
  | .mx preference n => be16Bytes preference ++ n.encode
  | .srv priority weight port n =>
      (be16Bytes priority ++ be16Bytes weight ++ be16Bytes port) ++ n.encode
  | .txt strings => (strings.map encodeString).flatten
  | .other _ data => data

/-- The name the data ends in. -/
def name : Rdata → Option Name
  | .cname n => some n
  | .ns n => some n
  | .ptr n => some n
  | .mx _ n => some n
  | .srv _ _ _ n => some n
  | _ => none

/-- The values the data stands for. -/
def values (R : Rendering) : Rdata → List Bytes
  | .a ip => [R.addr ip.1]
  | .aaaa ip => [R.addr ip.1]
  | .cname n => [ascii ['C', 'N', 'A', 'M', 'E', ':'] ++ R.text (dotted n.spelled)]
  | .ns n => [ascii ['N', 'S', ':'] ++ R.text (dotted n.spelled)]
  | .ptr n => [R.text (dotted n.spelled)]
  | .mx _ n => [ascii ['M', 'X', ':'] ++ R.text (dotted n.spelled)]
  | .srv _ _ _ n => [ascii ['S', 'R', 'V', ':'] ++ R.text (dotted n.spelled)]
  | .txt strings => strings.map fun s => R.text s.1
  | .other _ _ => []

end Rdata

structure Answer where
  owner : Name
  rclass : UInt16
  ttl : UInt16 × UInt16
  data : Rdata

namespace Answer

def header (a : Answer) : Bytes :=
  be16Bytes a.data.rtype ++ (be16Bytes a.rclass ++ be16Bytes a.ttl.1 ++ be16Bytes a.ttl.2)
    ++ be16Bytes (UInt16.ofNat a.data.encode.length)

def encode (a : Answer) : Bytes := a.owner.encode ++ (a.header ++ a.data.encode)

@[simp] theorem header_length (a : Answer) : a.header.length = 10 := rfl

/-- The record an answer written at `p` is. -/
def record (p : Nat) (a : Answer) : Record :=
  ⟨a.data.rtype, p + a.owner.encode.length + 10, a.data.encode.length⟩

theorem record_stop (p : Nat) (a : Answer) : (a.record p).stop = p + a.encode.length := by
  simp only [record, Record.stop, encode, List.length_append, header_length]
  omega

/-- The names written in an answer. -/
def names (a : Answer) : List Name := a.owner :: a.data.name.toList

end Answer

/-! ## What is written is there -/

variable {d : Bytes} {p : Nat}

theorem Question.questionAt {q : Question} (h : At d p q.encode) (hfits : q.name.Fits d) :
    QuestionAt d p (q.name.spelled, q.qtype) (p + q.encode.length) := by
  obtain ⟨hname, hrest⟩ := At.append_iff.mp h
  obtain ⟨htype, hclass⟩ := At.append_iff.mp hrest
  obtain ⟨hL, hn⟩ := Name.nameAt hfits hname
  have hle := hclass.le
  have hlen : q.encode.length = q.name.encode.length + 4 := by
    simp [Question.encode]
  rw [be16Bytes_length] at hle
  exact ⟨_, hL, hn, htype.word.symm, by omega, by rw [hlen]; simp at hle; omega⟩

theorem Answer.recordAt {a : Answer} (h : At d p a.encode) (hfits : a.owner.Fits d)
    (hrd : a.data.encode.length < 65536) :
    RecordAt d p (a.record p) ∧ At d (a.record p).rdoff a.data.encode := by
  obtain ⟨hname, hrest⟩ := At.append_iff.mp h
  obtain ⟨hheader, hdata⟩ := At.append_iff.mp hrest
  obtain ⟨hfixed, hlength⟩ := At.append_iff.mp hheader
  obtain ⟨htype, -⟩ := At.append_iff.mp hfixed
  obtain ⟨hL, hn⟩ := Name.nameAt hfits hname
  have hword := hlength.word
  have hrdlen : (UInt16.ofNat a.data.encode.length).toNat = a.data.encode.length := by
    simp
    omega
  simp only [List.length_append, be16Bytes_length, Nat.reduceAdd] at hword
  rw [header_length] at hdata
  refine ⟨⟨_, _, hL, hn, ?_, hdata.le⟩, hdata⟩
  rw [hword, htype.word, hrdlen]
  rfl

/-- Written character-strings are read back. -/
theorem charStrings_encode (strings : List {s : Bytes // s.length < 256}) :
    charStrings (strings.map encodeString).flatten = strings.map (·.1) := by
  have hnext : ∀ (s : {s : Bytes // s.length < 256}) (rest : Bytes),
      charStringFraming.next (encodeString s ++ rest) = some (s.1, rest) := by
    rintro ⟨s, hs⟩ rest
    have hnat : (UInt8.ofNat s.length).toNat = s.length := by simp; omega
    simp [charStringFraming, encodeString, charString, hnat]
  have hframes := charStringFraming.frames_encode hnext [] strings
  have hnil : charStringFraming.frames [] = [] := charStringFraming.frames_of_none rfl
  rwa [List.append_nil, hnil, List.append_nil] at hframes

theorem Rdata.hasValues {data : Rdata} {off : Nat} (R : Rendering) (h : At d off data.encode)
    (hfits : ∀ n ∈ data.name, n.Fits d) :
    HasValues R d ⟨data.rtype, off, data.encode.length⟩ (data.values R) := by
  -- a record that carries the name `n` after `lead` bytes
  have hname : ∀ (n : Name) (lead : Bytes), data.name = some n → data.encode = lead ++ n.encode →
      NameAt d (off + lead.length) n.spelled := by
    intro n lead hn henc
    rw [henc] at h
    exact (Name.nameAt (hfits n hn) (At.append_iff.mp h).2).1
  have hrdata : Record.rdata ⟨data.rtype, off, data.encode.length⟩ d = data.encode := h.eq
  cases data with
  | a ip =>
      refine (hasValues_plain rfl).mpr ?_
      rw [hrdata]
      simp [plainValues, encode, values, rtype, ip.2]
  | aaaa ip =>
      refine (hasValues_plain rfl).mpr ?_
      rw [hrdata]
      simp [plainValues, encode, values, rtype, ip.2]
  | cname n => exact (hasValues_name rfl).mpr ⟨_, hname n [] rfl rfl, rfl⟩
  | ns n => exact (hasValues_name rfl).mpr ⟨_, hname n [] rfl rfl, rfl⟩
  | ptr n => exact (hasValues_name rfl).mpr ⟨_, hname n [] rfl rfl, rfl⟩
  | mx preference n =>
      have hpos := n.encode_pos
      refine (hasValues_name ?_).mpr ⟨_, hname n (be16Bytes preference) rfl rfl, rfl⟩
      simp [Record.nameOff, nameSkip, rtype, encode, hpos]
  | srv priority weight port n =>
      have hpos := n.encode_pos
      refine (hasValues_name ?_).mpr
        ⟨_, hname n (be16Bytes priority ++ be16Bytes weight ++ be16Bytes port) rfl rfl, rfl⟩
      simp [Record.nameOff, nameSkip, rtype, encode]
      omega
  | txt strings =>
      refine (hasValues_plain rfl).mpr ?_
      rw [hrdata]
      simp only [plainValues, rtype, values, encode, charStrings_encode, List.map_map]
      rfl
  | other t data =>
      obtain ⟨t, ht⟩ := t
      simp only [knownTypes, List.mem_cons, List.not_mem_nil, or_false, not_or] at ht
      refine (hasValues_plain ?_).mpr ?_
      · simp [Record.nameOff, nameSkip, rtype, ht]
      · simp [plainValues, rtype, values, ht]

/-! ## Messages -/

/-- The content of a message; `rest` is what comes after the answers. -/
structure Content where
  id : UInt16
  flags : UInt16
  nscount : UInt16
  arcount : UInt16
  questions : List Question
  answers : List Answer
  rest : Bytes

namespace Content

def header (m : Content) : Bytes :=
  (be16Bytes m.id ++ be16Bytes m.flags)
    ++ (be16Bytes (UInt16.ofNat m.questions.length) ++ be16Bytes (UInt16.ofNat m.answers.length))
    ++ (be16Bytes m.nscount ++ be16Bytes m.arcount)

@[simp] theorem header_length (m : Content) : m.header.length = 12 := rfl

def encode (m : Content) : Bytes :=
  m.header ++ (m.questions.flatMap Question.encode ++ (m.answers.flatMap Answer.encode ++ m.rest))

/-- The names written in the message. -/
def names (m : Content) : List Name := m.questions.map (·.name) ++ m.answers.flatMap Answer.names

end Content

/-- A well-formed message: its counts and lengths fit 16 bits, and every pointer leads to
a place where the message spells the rest of the name. -/
structure Message extends Content where
  qdcount : questions.length < 65536
  ancount : answers.length < 65536
  rdlength : ∀ a ∈ answers, a.data.encode.length < 65536
  pointers : ∀ n ∈ toContent.names, n.Fits toContent.encode

/-- The records of answers written from `p` on. -/
def recordsFrom : Nat → List Answer → List Record
  | _, [] => []
  | p, a :: as => a.record p :: recordsFrom (p + a.encode.length) as

theorem questions_encode : ∀ {qs : List Question} {p : Nat},
    At d p (qs.flatMap Question.encode) → (∀ q ∈ qs, q.name.Fits d) →
      Questions d p (qs.map fun q => (q.name.spelled, q.qtype))
        (p + (qs.flatMap Question.encode).length)
  | [], _, _, _ => .nil
  | q :: qs, p, h, hfits => by
      rw [List.flatMap_cons] at h ⊢
      obtain ⟨hq, hqs⟩ := At.append_iff.mp h
      have hrest := questions_encode hqs fun q' hq' => hfits q' (List.mem_cons_of_mem _ hq')
      rw [Nat.add_assoc, ← List.length_append] at hrest
      exact .cons (Question.questionAt hq (hfits q (List.mem_cons_self ..))) hrest

theorem records_encode : ∀ {as : List Answer} {p : Nat},
    At d p (as.flatMap Answer.encode) → (∀ a ∈ as, ∀ n ∈ a.names, n.Fits d) →
    (∀ a ∈ as, a.data.encode.length < 65536) →
      Records d p (recordsFrom p as) (p + (as.flatMap Answer.encode).length)
        ∧ ∀ R, AllValues R d (recordsFrom p as) (as.flatMap (·.data.values R))
  | [], _, _, _, _ => ⟨.nil, fun _ => rfl⟩
  | a :: as, p, h, hfits, hrd => by
      rw [List.flatMap_cons] at h ⊢
      obtain ⟨ha, has⟩ := At.append_iff.mp h
      obtain ⟨hrec, hdata⟩ := Answer.recordAt ha
        (hfits a (List.mem_cons_self ..) _ (List.mem_cons_self ..)) (hrd a (List.mem_cons_self ..))
      obtain ⟨hrest, hvals⟩ := records_encode has
        (fun a' ha' => hfits a' (List.mem_cons_of_mem _ ha'))
        (fun a' ha' => hrd a' (List.mem_cons_of_mem _ ha'))
      rw [Nat.add_assoc, ← List.length_append] at hrest
      refine ⟨.cons hrec (a.record_stop p ▸ hrest), fun R => ⟨_, _, ?_, hvals R, rfl⟩⟩
      refine Rdata.hasValues R hdata fun n hn => ?_
      exact hfits a (List.mem_cons_self ..) n
        (List.mem_cons_of_mem _ (Option.mem_toList.mpr hn))

namespace Message

variable (m : Message)

/-- The records of the message. -/
def records : List Record :=
  recordsFrom (12 + (m.questions.flatMap Question.encode).length) m.answers

/-- The first question's name and type. -/
def asked : List (List Bytes × UInt16) := m.questions.map fun q => (q.name.spelled, q.qtype)

theorem recordsFrom_length : ∀ (as : List Answer) (p : Nat),
    (recordsFrom p as).length = as.length
  | [], _ => rfl
  | a :: as, p => by
      rw [recordsFrom, List.length_cons, List.length_cons, recordsFrom_length as]

/-- Where the parts of the message lie. -/
theorem at_parts : At m.encode 0 m.header
    ∧ At m.encode 12 (m.questions.flatMap Question.encode)
    ∧ At m.encode (12 + (m.questions.flatMap Question.encode).length)
        (m.answers.flatMap Answer.encode) := by
  have h : At m.encode 0 m.encode := ⟨by simp, by simp⟩
  obtain ⟨hheader, hrest⟩ := At.append_iff.mp h
  obtain ⟨hqs, hrest⟩ := At.append_iff.mp hrest
  rw [Content.header_length, Nat.zero_add] at hqs hrest
  exact ⟨hheader, hqs, (At.append_iff.mp hrest).1⟩

theorem words : word m.encode 0 = m.id ∧ word m.encode 2 = m.flags
    ∧ (word m.encode 4).toNat = m.questions.length
    ∧ (word m.encode 6).toNat = m.answers.length := by
  obtain ⟨hfront, -⟩ := At.append_iff.mp m.at_parts.1
  obtain ⟨hids, hcounts⟩ := At.append_iff.mp hfront
  obtain ⟨hid, hflags⟩ := At.append_iff.mp hids
  obtain ⟨hqd, han⟩ := At.append_iff.mp hcounts
  have hq := m.qdcount
  have ha := m.ancount
  refine ⟨hid.word, hflags.word, ?_, ?_⟩
  · rw [show 4 = 0 + (be16Bytes m.id ++ be16Bytes m.flags).length by rfl, hqd.word]
    simp
    omega
  · have hword := han.word
    simp only [List.length_append, be16Bytes_length, Nat.reduceAdd, Nat.zero_add] at hword
    rw [hword]
    simp
    omega

theorem layout : ∃ stop, Questions m.encode 12 m.asked
      (12 + (m.questions.flatMap Question.encode).length)
    ∧ Records m.encode (12 + (m.questions.flatMap Question.encode).length) m.records stop
    ∧ ∀ R, AllValues R m.encode m.records (m.answers.flatMap (·.data.values R)) := by
  obtain ⟨-, hqs, has⟩ := m.at_parts
  have hfits : ∀ a ∈ m.answers, ∀ n ∈ a.names, n.Fits m.encode := fun a ha n hn =>
    m.pointers n (List.mem_append_right _ (List.mem_flatMap.mpr ⟨a, ha, hn⟩))
  have hqfits : ∀ q ∈ m.questions, q.name.Fits m.encode := fun q hq =>
    m.pointers _ (List.mem_append_left _ (List.mem_map_of_mem hq))
  obtain ⟨hrecs, hvals⟩ := records_encode has hfits m.rdlength
  exact ⟨_, questions_encode hqs hqfits, hrecs, hvals⟩

/-- The values of the message's records are those of its answers. -/
theorem allValues (R : Rendering) :
    AllValues R m.encode m.records (m.answers.flatMap (·.data.values R)) := by
  obtain ⟨stop, -, -, hvals⟩ := m.layout
  exact hvals R

/-- The bytes of a message are a whole message. -/
theorem whole : Whole m.encode m.asked m.records := by
  obtain ⟨-, -, hqd, han⟩ := m.words
  obtain ⟨stop, hq, hr, hvals⟩ := m.layout
  refine ⟨?_, ?_, ?_, ⟨_, stop, hq, hr⟩, (hvals ⟨id, id⟩).resolves⟩
  · have hle := m.at_parts.1.le
    rw [Content.header_length] at hle
    omega
  · rw [hqd, asked, List.length_map]
  · rw [han, records, recordsFrom_length]

end Message

end Tracep.Dns.Wire
