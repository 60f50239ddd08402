import Tracep.Dns.Name
import Tracep.Lib.Framing

/-!
# Messages on the wire

The layout of a DNS message as the format defines it: a 12-byte header,
questions, resource records (`Questions`, `Records`), the names inside
RDATA (`nameSkip`) and the values a record carries. `Whole d qs rs` says
that `d` holds all the questions and records its header declares, and that
every name a record carries ends inside `d`.

How a value is shown is left to a `Rendering`, so one layout serves both
ports. Everything here speaks about bytes that are present, so a whole
message stays whole, with the same values, when bytes are appended
(`Whole.append`, `values_append`).
-/

namespace Tracep.Dns

/-- ASCII text as bytes. -/
def ascii (cs : List Char) : Bytes := cs.map fun c => UInt8.ofNat c.toNat

/-- The dotted text of a name. -/
def dotted (L : List Bytes) : Bytes := join (ascii ['.']) L

theorem dotted_eq_nil {L : List Bytes} (h : ∀ t ∈ L, t ≠ []) : dotted L = [] ↔ L = [] := by
  constructor
  · intro hd
    cases L with
    | nil => rfl
    | cons a r =>
        have ha := h a (List.mem_cons_self ..)
        cases r with
        | nil => exact absurd hd ha
        | cons b r => simp [dotted, join, ascii] at hd
  · rintro rfl
    rfl

theorem dotted_append_single {L : List Bytes} (h : L ≠ []) (t : Bytes) :
    dotted (L ++ [t]) = dotted L ++ 46 :: t := by
  rw [dotted, join_append_single _ _ _ h, List.append_assoc]
  rfl

/-! ## Character strings -/

/-- The first character-string of TXT data: a length byte and that many bytes. -/
def charString : Bytes → Option (Bytes × Bytes)
  | [] => none
  | l :: rest =>
      if l.toNat ≤ rest.length then some (rest.take l.toNat, rest.drop l.toNat) else none

def charStringFraming : Framing UInt8 Bytes where
  next := charString
  shrink := by
    intro s b r h
    cases s with
    | nil => cases h
    | cons l rest =>
        rw [charString] at h
        split at h
        · obtain ⟨-, rfl⟩ := Prod.mk.inj (Option.some.inj h)
          simp only [List.length_drop, List.length_cons]
          omega
        · cases h

/-- The character-strings of TXT data. -/
def charStrings (rdata : Bytes) : List Bytes := charStringFraming.frames rdata

/-! ## Records -/

/-- Where a resource record keeps what it says. -/
structure Record where
  rtype : UInt16
  rdoff : Nat
  rdlen : Nat
deriving Repr, DecidableEq

/-- The offset after the record. -/
def Record.stop (r : Record) : Nat := r.rdoff + r.rdlen

def Record.rdata (r : Record) (d : Bytes) : Bytes := (d.drop r.rdoff).take r.rdlen

/-- A record starts at `off` and lies inside the data. -/
def RecordAt (d : Bytes) (off : Nat) (r : Record) : Prop :=
  ∃ L n, NameAt d off L ∧ FieldEnd d off n
    ∧ r = ⟨word d n, n + 10, (word d (n + 8)).toNat⟩ ∧ r.stop ≤ d.length

/-- How far into its RDATA a record of this type carries a name: the bare name of
CNAME, PTR and NS, the name after the preference of MX and after the header of SRV. -/
def nameSkip (rtype : UInt16) (rdlen : Nat) : Option Nat :=
  if rtype = 5 ∨ rtype = 12 ∨ rtype = 2 then some 0
  else if rtype = 15 then (if 2 < rdlen then some 2 else none)
  else if rtype = 33 then (if 6 < rdlen then some 6 else none)
  else none

theorem nameSkip_eq_some {rtype : UInt16} {rdlen k : Nat} (h : nameSkip rtype rdlen = some k) :
    ((rtype = 5 ∨ rtype = 12 ∨ rtype = 2) ∧ k = 0)
      ∨ (rtype = 15 ∧ 2 < rdlen ∧ k = 2) ∨ (rtype = 33 ∧ 6 < rdlen ∧ k = 6) := by
  unfold nameSkip at h
  split at h
  · exact Or.inl ⟨‹_›, (Option.some.inj h).symm⟩
  · split at h
    · split at h
      · exact Or.inr (Or.inl ⟨‹_›, ‹_›, (Option.some.inj h).symm⟩)
      · cases h
    · split at h
      · split at h
        · exact Or.inr (Or.inr ⟨‹_›, ‹_›, (Option.some.inj h).symm⟩)
        · cases h
      · cases h

theorem nameSkip_eq_none {rtype : UInt16} {rdlen : Nat} (h : nameSkip rtype rdlen = none) :
    (rtype ≠ 5 ∧ rtype ≠ 12 ∧ rtype ≠ 2) ∧ (rtype = 15 → ¬2 < rdlen)
      ∧ (rtype = 33 → ¬6 < rdlen) := by
  unfold nameSkip at h
  split at h
  · cases h
  · rename_i hbare
    rw [not_or, not_or] at hbare
    refine ⟨hbare, ?_, ?_⟩
    · rintro rfl hlt
      simp [hlt] at h
    · rintro rfl hlt
      simp [hlt] at h

/-- What is shown before the name a record carries. -/
def namePrefix (rtype : UInt16) : Bytes :=
  if rtype = 5 then ascii ['C', 'N', 'A', 'M', 'E', ':']
  else if rtype = 15 then ascii ['M', 'X', ':']
  else if rtype = 33 then ascii ['S', 'R', 'V', ':']
  else if rtype = 2 then ascii ['N', 'S', ':']
  else []

/-- The offset of the name a record carries. -/
def Record.nameOff (r : Record) : Option Nat :=
  (nameSkip r.rtype r.rdlen).map (r.rdoff + ·)

/-- How a reader shows addresses and texts. -/
structure Rendering where
  addr : Bytes → Bytes
  text : Bytes → Bytes

/-- The values of a record that carries no name. -/
def plainValues (R : Rendering) (rtype : UInt16) (rdata : Bytes) : List Bytes :=
  if rtype = 1 then (if rdata.length = 4 then [R.addr rdata] else [])
  else if rtype = 28 then (if rdata.length = 16 then [R.addr rdata] else [])
  else if rtype = 16 then (charStrings rdata).map R.text
  else []

/-- The record `r` of `d` has the values `vs`. -/
def HasValues (R : Rendering) (d : Bytes) (r : Record) (vs : List Bytes) : Prop :=
  match r.nameOff with
  | some p => ∃ L, NameAt d p L ∧ vs = [namePrefix r.rtype ++ R.text (dotted L)]
  | none => vs = plainValues R r.rtype (r.rdata d)

theorem hasValues_name {R : Rendering} {d : Bytes} {r : Record} {p : Nat} {vs : List Bytes}
    (h : r.nameOff = some p) :
    HasValues R d r vs ↔
      ∃ L, NameAt d p L ∧ vs = [namePrefix r.rtype ++ R.text (dotted L)] := by
  rw [HasValues, h]

theorem hasValues_plain {R : Rendering} {d : Bytes} {r : Record} {vs : List Bytes}
    (h : r.nameOff = none) :
    HasValues R d r vs ↔ vs = plainValues R r.rtype (r.rdata d) := by
  rw [HasValues, h]

/-! ## The layout of a message -/

/-- The question `q` (name and type) starts at `off` and ends before `stop`. -/
def QuestionAt (d : Bytes) (off : Nat) (q : List Bytes × UInt16) (stop : Nat) : Prop :=
  ∃ n, NameAt d off q.1 ∧ FieldEnd d off n ∧ q.2 = word d n ∧ stop = n + 4 ∧ stop ≤ d.length

/-- The questions `qs` lie between `off` and `stop`. -/
inductive Questions (d : Bytes) : Nat → List (List Bytes × UInt16) → Nat → Prop where
  | nil {off : Nat} : Questions d off [] off
  | cons {off next stop : Nat} {q : List Bytes × UInt16} {qs : List (List Bytes × UInt16)} :
      QuestionAt d off q next → Questions d next qs stop → Questions d off (q :: qs) stop

/-- The records `rs` lie between `off` and `stop`. -/
inductive Records (d : Bytes) : Nat → List Record → Nat → Prop where
  | nil {off : Nat} : Records d off [] off
  | cons {off stop : Nat} {r : Record} {rs : List Record} :
      RecordAt d off r → Records d r.stop rs stop → Records d off (r :: rs) stop

/-- The message `d` holds all the questions and records it declares, and every
name a record carries ends inside it. -/
structure Whole (d : Bytes) (qs : List (List Bytes × UInt16)) (rs : List Record) : Prop where
  header : 12 ≤ d.length
  qdcount : qs.length = (word d 4).toNat
  ancount : rs.length = (word d 6).toNat
  layout : ∃ mid stop, Questions d 12 qs mid ∧ Records d mid rs stop
  names : ∀ r ∈ rs, ∀ p, r.nameOff = some p → Resolves d p

/-- If each record has the values `V` gives it, the records `rs` have, one after
another, the values `vs`. -/
def Yields (V : Record → List Bytes → Prop) : List Record → List Bytes → Prop
  | [], vs => vs = []
  | r :: rs, vs => ∃ v w, V r v ∧ Yields V rs w ∧ vs = v ++ w

theorem Yields.unique {V : Record → List Bytes → Prop} (hV : Relator.RightUnique V) :
    Relator.RightUnique (Yields V)
  | [], _, _, h, h' => h.trans h'.symm
  | _ :: _, _, _, ⟨_, _, hv, hw, rfl⟩, ⟨_, _, hv', hw', rfl⟩ => by
      rw [hV hv hv', Yields.unique hV hw hw']

theorem Yields.exists {V : Record → List Bytes → Prop} :
    ∀ {rs : List Record}, (∀ r ∈ rs, ∃ v, V r v) → ∃ vs, Yields V rs vs
  | [], _ => ⟨[], rfl⟩
  | r :: rs, h => by
      obtain ⟨w, hw⟩ := Yields.exists fun r' hr' => h r' (List.mem_cons_of_mem _ hr')
      obtain ⟨v, hv⟩ := h r (List.mem_cons_self ..)
      exact ⟨v ++ w, v, w, hv, hw, rfl⟩

theorem Yields.imp {V W : Record → List Bytes → Prop} :
    ∀ {rs : List Record} {vs : List Bytes}, (∀ r ∈ rs, ∀ v, V r v → W r v) →
      Yields V rs vs → Yields W rs vs
  | [], _, _, h => h
  | r :: _, _, hVW, ⟨v, w, hv, hw, rfl⟩ =>
      ⟨v, w, hVW r (List.mem_cons_self ..) v hv,
        Yields.imp (fun r' hr' => hVW r' (List.mem_cons_of_mem _ hr')) hw, rfl⟩

/-- If `V` gives no record more values than `W` does and the two yield the same values,
they agree on every record. -/
theorem Yields.pointwise {V W : Record → List Bytes → Prop}
    (hle : ∀ r v w, V r v → W r w → v.length ≤ w.length) :
    ∀ {rs : List Record} {vs ws : List Bytes}, Yields V rs vs → Yields W rs ws →
      vs.length ≤ ws.length ∧ (vs = ws → ∀ r ∈ rs, ∃ v, V r v ∧ W r v)
  | [], _, _, rfl, rfl => ⟨Nat.le_refl _, fun _ r hr => absurd hr (List.not_mem_nil)⟩
  | r :: rs, _, _, ⟨v, vs, hv, hvs, rfl⟩, ⟨w, ws, hw, hws, rfl⟩ => by
      obtain ⟨hlen, hall⟩ := Yields.pointwise hle hvs hws
      have hhead := hle r v w hv hw
      refine ⟨by rw [List.length_append, List.length_append]; omega, fun heq => ?_⟩
      -- neither part can be shorter, so both have the same length
      have htotal := congrArg List.length heq
      rw [List.length_append, List.length_append] at htotal
      obtain ⟨rfl, rfl⟩ := List.append_inj heq (by omega)
      intro r' hr'
      rcases List.mem_cons.mp hr' with rfl | hr'
      · exact ⟨v, hv, hw⟩
      · exact hall rfl r' hr'

/-- The records `rs` of `d` have, one after another, the values `vs`. -/
def AllValues (R : Rendering) (d : Bytes) : List Record → List Bytes → Prop :=
  Yields (HasValues R d)

theorem QuestionAt.unique {d : Bytes} {off stop stop' : Nat} {q q' : List Bytes × UInt16}
    (h : QuestionAt d off q stop) (h' : QuestionAt d off q' stop') :
    q = q' ∧ stop = stop' := by
  obtain ⟨n, hL, hn, ht, rfl, -⟩ := h
  obtain ⟨n', hL', hn', ht', rfl, -⟩ := h'
  obtain rfl := hn.unique hn'
  exact ⟨Prod.ext (hL.unique hL') (ht.trans ht'.symm), rfl⟩

theorem Questions.unique {d : Bytes} {off stop : Nat} {qs : List (List Bytes × UInt16)}
    (h : Questions d off qs stop) :
    ∀ {qs' : List (List Bytes × UInt16)} {stop' : Nat}, Questions d off qs' stop' →
      qs.length = qs'.length → qs = qs' ∧ stop = stop' := by
  induction h with
  | nil =>
      intro qs' stop' h' hlen
      cases h' with
      | nil => exact ⟨rfl, rfl⟩
      | cons _ _ => cases hlen
  | cons hq _ ih =>
      intro qs' stop' h' hlen
      cases h' with
      | nil => cases hlen
      | cons hq' hrest =>
          obtain ⟨rfl, rfl⟩ := hq.unique hq'
          obtain ⟨rfl, rfl⟩ := ih hrest (Nat.succ.inj hlen)
          exact ⟨rfl, rfl⟩

theorem RecordAt.bounds {d : Bytes} {off : Nat} {r : Record} (h : RecordAt d off r) :
    off + 11 ≤ r.rdoff ∧ r.stop ≤ d.length := by
  obtain ⟨L, n, -, hn, rfl, hstop⟩ := h
  have := hn.bounds
  exact ⟨by simp only; omega, hstop⟩

theorem RecordAt.unique {d : Bytes} {off : Nat} {r r' : Record}
    (h : RecordAt d off r) (h' : RecordAt d off r') : r = r' := by
  obtain ⟨L, n, -, hn, rfl, -⟩ := h
  obtain ⟨L', n', -, hn', rfl, -⟩ := h'
  rw [hn.unique hn']

theorem Record.rdata_length {d : Bytes} {r : Record} (h : r.stop ≤ d.length) :
    (r.rdata d).length = r.rdlen := by
  rw [Record.stop] at h
  rw [Record.rdata, List.length_take, List.length_drop]
  omega

theorem HasValues.unique {R : Rendering} {d : Bytes} {r : Record} {vs vs' : List Bytes}
    (h : HasValues R d r vs) (h' : HasValues R d r vs') : vs = vs' := by
  cases hp : r.nameOff with
  | some p =>
      obtain ⟨L, hL, rfl⟩ := (hasValues_name hp).mp h
      obtain ⟨L', hL', rfl⟩ := (hasValues_name hp).mp h'
      rw [hL.unique hL']
  | none => rw [(hasValues_plain hp).mp h, (hasValues_plain hp).mp h']

theorem AllValues.unique {R : Rendering} {d : Bytes} {rs : List Record}
    {vs vs' : List Bytes} (h : AllValues R d rs vs) (h' : AllValues R d rs vs') : vs = vs' :=
  Yields.unique (V := HasValues R d) (fun _ _ _ => HasValues.unique) h h'

theorem Yields.mem {V : Record → List Bytes → Prop} :
    ∀ {rs : List Record} {vs : List Bytes}, Yields V rs vs → ∀ r ∈ rs, ∃ v, V r v
  | [], _, _, r, hr => absurd hr (List.not_mem_nil)
  | r :: _, _, ⟨v, _, hv, hw, _⟩, r', hr' => by
      rcases List.mem_cons.mp hr' with rfl | hr'
      · exact ⟨v, hv⟩
      · exact Yields.mem hw r' hr'

/-- Where all values are known, every name a record carries resolves. -/
theorem AllValues.resolves {R : Rendering} {d : Bytes} {rs : List Record} {vs : List Bytes}
    (h : AllValues R d rs vs) : ∀ r ∈ rs, ∀ p, r.nameOff = some p → Resolves d p := by
  intro r hr p hp
  obtain ⟨v, hv⟩ := Yields.mem h r hr
  obtain ⟨L, hL, -⟩ := (hasValues_name hp).mp hv
  exact ⟨L, hL⟩

/-- Every record of a whole message has values. -/
theorem AllValues.exists (R : Rendering) {d : Bytes} {rs : List Record}
    (h : ∀ r ∈ rs, ∀ p, r.nameOff = some p → Resolves d p) : ∃ vs, AllValues R d rs vs := by
  refine Yields.exists fun r hr => ?_
  cases hp : r.nameOff with
  | some p =>
      obtain ⟨L, hL⟩ := h r hr p hp
      exact ⟨_, (hasValues_name hp).mpr ⟨L, hL, rfl⟩⟩
  | none => exact ⟨_, (hasValues_plain hp).mpr rfl⟩

/-! ## Appended bytes change nothing -/

theorem RecordAt.append {d : Bytes} {off : Nat} {r : Record} (h : RecordAt d off r)
    (x : Bytes) : RecordAt (d ++ x) off r := by
  obtain ⟨L, n, hL, hn, rfl, hstop⟩ := h
  simp only [Record.stop] at hstop
  refine ⟨L, n, hL.append x, hn.append x, ?_, ?_⟩
  · rw [word_append (by omega), word_append (by omega)]
  · simp only [Record.stop, List.length_append]
    omega

theorem QuestionAt.append {d : Bytes} {off stop : Nat} {q : List Bytes × UInt16}
    (h : QuestionAt d off q stop) (x : Bytes) : QuestionAt (d ++ x) off q stop := by
  obtain ⟨n, hL, hn, ht, rfl, hle⟩ := h
  refine ⟨n, hL.append x, hn.append x, ?_, rfl, ?_⟩
  · rw [word_append (by omega), ht]
  · rw [List.length_append]
    omega

theorem Questions.append {d : Bytes} {off stop : Nat} {qs : List (List Bytes × UInt16)}
    (h : Questions d off qs stop) (x : Bytes) : Questions (d ++ x) off qs stop := by
  induction h with
  | nil => exact .nil
  | cons hq _ ih => exact .cons (hq.append x) ih

theorem Records.append {d : Bytes} {off stop : Nat} {rs : List Record}
    (h : Records d off rs stop) (x : Bytes) : Records (d ++ x) off rs stop := by
  induction h with
  | nil => exact .nil
  | cons hr _ ih => exact .cons (hr.append x) ih

theorem Whole.append {d : Bytes} {qs : List (List Bytes × UInt16)} {rs : List Record}
    (h : Whole d qs rs) (x : Bytes) : Whole (d ++ x) qs rs where
  header := by
    have := h.header
    rw [List.length_append]
    omega
  qdcount := by
    have := h.header
    rw [word_append (by omega), h.qdcount]
  ancount := by
    have := h.header
    rw [word_append (by omega), h.ancount]
  layout := by
    obtain ⟨mid, stop, hq, hr⟩ := h.layout
    exact ⟨mid, stop, hq.append x, hr.append x⟩
  names := by
    intro r hr p hp
    obtain ⟨L, hL⟩ := h.names r hr p hp
    exact ⟨L, hL.append x⟩

theorem Records.stop_le {d : Bytes} {off stop : Nat} {rs : List Record}
    (h : Records d off rs stop) : ∀ r ∈ rs, r.stop ≤ d.length := by
  induction h with
  | nil => simp
  | cons hr _ ih =>
      intro r' hr'
      rcases List.mem_cons.mp hr' with rfl | hr'
      · exact hr.bounds.2
      · exact ih r' hr'

theorem HasValues.append {R : Rendering} {d : Bytes} {r : Record} {vs : List Bytes}
    (hstop : r.stop ≤ d.length) (h : HasValues R d r vs) (x : Bytes) :
    HasValues R (d ++ x) r vs := by
  cases hp : r.nameOff with
  | some p =>
      obtain ⟨L, hL, rfl⟩ := (hasValues_name hp).mp h
      exact (hasValues_name hp).mpr ⟨L, hL.append x, rfl⟩
  | none =>
      rw [Record.stop] at hstop
      rw [(hasValues_plain hp).mp h, hasValues_plain hp, Record.rdata, Record.rdata,
        List.drop_append_of_le_length (by omega),
        List.take_append_of_le_length (by rw [List.length_drop]; omega)]

theorem AllValues.append {R : Rendering} {d : Bytes} {rs : List Record} {vs : List Bytes}
    (hstop : ∀ r ∈ rs, r.stop ≤ d.length) (h : AllValues R d rs vs) (x : Bytes) :
    AllValues R (d ++ x) rs vs :=
  h.imp fun r hr _ hv => hv.append (hstop r hr) x

end Tracep.Dns
