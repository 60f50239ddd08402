import Tracep.Ca.Fetch
import Tracep.Lib.Hex

/-!
# Responses

A response has a status line, fields with blanks around their values, and a
body that ends with the connection, after as many bytes as a field says, or
after a last chunk. What `http_get_once` makes of one is the status, the last
`Location` with the blanks after it, and all that comes after the header
(`readResponse_text`). So it is not what the response says where the body is
in chunks (`httpGetOnce_entity_iff`).
-/

namespace Tracep.Ca

open Exec Fields

/-! ## Fields -/

def crlf : Bytes := [13, 10]

/-- Blanks and tabs. -/
def isBlank (b : UInt8) : Bool := b = 32 || b = 9

/-- What a reason and a value are made of. -/
def isText (b : UInt8) : Bool := b = 9 || 32 ≤ b && b ≠ 127

/-- What a name is made of: letters, digits and fifteen marks. -/
def isToken (b : UInt8) : Bool :=
  48 ≤ b && b ≤ 57 || 65 ≤ b && b ≤ 90 || 94 ≤ b && b ≤ 122
    || b ∈ ([33, 35, 36, 37, 38, 39, 42, 43, 45, 46, 124, 126] : Bytes)

/-- A line of a header. The blanks of a field without a value come before it. -/
structure Field where
  name : Bytes
  lead : Bytes
  value : Bytes
  trail : Bytes
  name_ne_nil : name ≠ []
  name_token : ∀ b ∈ name, isToken b = true
  lead_blank : ∀ b ∈ lead, isBlank b = true
  value_text : ∀ b ∈ value, isText b = true
  value_starts : value.head?.all (!isBlank ·) = true
  value_ends : value.getLast?.all (!isBlank ·) = true
  trail_blank : ∀ b ∈ trail, isBlank b = true
  trail_nil : value = [] → trail = []

/-- The line of a field. -/
def Field.line (f : Field) : Bytes := f.name ++ 58 :: (f.lead ++ (f.value ++ f.trail))

/-- The field has a name, in letters of any case. -/
def Field.isNamed (f : Field) (name : Bytes) : Bool := lower f.name = name

/-- `location`, `content-length`, `transfer-encoding` and `chunked`. -/
def locationName : Bytes := [108, 111, 99, 97, 116, 105, 111, 110]
def lengthName : Bytes :=
  [99, 111, 110, 116, 101, 110, 116, 45, 108, 101, 110, 103, 116, 104]
def codingName : Bytes :=
  [116, 114, 97, 110, 115, 102, 101, 114, 45, 101, 110, 99, 111, 100, 105, 110, 103]
def chunkedName : Bytes := [99, 104, 117, 110, 107, 101, 100]

/-- Lines, each with its end. -/
def linesText (lines : List Bytes) : Bytes := lines.flatMap (· ++ crlf)

/-! ## Bodies -/

/-- The size in hexadecimal, what may be said about the chunk, and the data. -/
structure Chunk where
  size : Bytes
  extension : Bytes
  data : Bytes
  size_ne_nil : size ≠ []
  size_hex : ∀ b ∈ size, isHex b = true
  size_eq : hexNumber 0 size = data.length
  extension_text : ∀ b ∈ extension, isText b = true
  extension_starts : extension.head?.all (fun b => b = 59 || isBlank b) = true

def Chunk.line (c : Chunk) : Bytes := c.size ++ c.extension

inductive Body where
  | absent
  | toClose (data : Bytes)
  | counted (data : Bytes)
  | chunked (chunks : List Chunk) (last : Chunk) (trailer : List Field)

namespace Body

/-- What the body is of. -/
def entity : Body → Bytes
  | absent => []
  | toClose data => data
  | counted data => data
  | chunked chunks _ _ => chunks.flatMap Chunk.data

/-- What is sent. -/
def text : Body → Bytes
  | absent => []
  | toClose data => data
  | counted data => data
  | chunked chunks last trailer =>
      chunks.flatMap (fun c => c.line ++ crlf ++ c.data ++ crlf) ++ last.line ++ crlf
        ++ linesText (trailer.map Field.line) ++ crlf

/-- The responses with these codes have no body. -/
def bodyless (code : Nat) : Bool := code = 204 || code = 304

/-- The code and the fields say how the body ends. -/
def Framed (code : Nat) (fields : List Field) : Body → Prop
  | absent => bodyless code = true
  | toClose _ =>
      bodyless code = false
        ∧ ∀ f ∈ fields, f.isNamed lengthName = false ∧ f.isNamed codingName = false
  | counted data =>
      bodyless code = false ∧ (∃ f ∈ fields, f.isNamed lengthName = true)
        ∧ ∀ f ∈ fields, f.isNamed codingName = false
          ∧ (f.isNamed lengthName = true → f.value ≠ [] ∧ (∀ b ∈ f.value, isDigit b = true)
            ∧ digitsValue 0 f.value = data.length)
  | chunked chunks last _ =>
      bodyless code = false ∧ (∃ f ∈ fields, f.isNamed codingName = true)
        ∧ (∀ f ∈ fields, f.isNamed lengthName = false
          ∧ (f.isNamed codingName = true → lower f.value = chunkedName))
        ∧ (∀ c ∈ chunks, c.data ≠ []) ∧ last.data = []

def isChunked : Body → Bool
  | chunked _ _ _ => true
  | _ => false

end Body

/-- A response to a request. -/
structure Message where
  code : Nat
  reason : Bytes
  fields : List Field
  body : Body
  code_final : 200 ≤ code
  code_short : code < 1000
  reason_text : ∀ b ∈ reason, isText b = true
  location_once : (fields.filter (·.isNamed locationName)).length ≤ 1
  framed : body.Framed code fields

namespace Message

/-- `HTTP/1.1`, the code and the reason. -/
def statusLine (m : Message) : Bytes :=
  [72, 84, 84, 80, 47, 49, 46, 49, 32] ++ digits 10 m.code ++ 32 :: m.reason

def lines (m : Message) : List Bytes := m.statusLine :: m.fields.map Field.line

def text (m : Message) : Bytes := linesText m.lines ++ crlf ++ m.body.text

def locationField (m : Message) : Option Field := m.fields.find? (·.isNamed locationName)

/-- The value of the field `Location`, if there is one. -/
def location (m : Message) : Bytes := m.locationField.elim [] Field.value

end Message

/-! ## The header -/

section Lines

variable {l s : Bytes} {lines : List Bytes}

theorem crlfLines_line (h : 13 ∉ l) : crlfLines (l ++ crlf ++ s) = l :: crlfLines s := by
  induction l with
  | nil => rfl
  | cons b l ih =>
      obtain ⟨hb, hl⟩ := not_or.mp (mt List.mem_cons.mpr h)
      rw [List.cons_append, List.cons_append, crlfLines, ih hl]
      exact fun _ heq _ => hb heq.symm

theorem crlfLines_linesText (h : ∀ l ∈ lines, 13 ∉ l) : crlfLines (linesText lines) = lines := by
  induction lines with
  | nil => rfl
  | cons l lines ih =>
      obtain ⟨hl, hlines⟩ := List.forall_mem_cons.mp h
      rw [linesText, List.flatMap_cons, crlfLines_line hl]
      exact congrArg (l :: ·) (ih hlines)

/-- An end of a line that no other follows is not the end of the header. -/
theorem cut_crlf (h : s.head? ≠ some 13) : cut [13, 10, 13, 10] (13 :: 10 :: s)
    = (cut [13, 10, 13, 10] s).map fun (before, after) => (13 :: 10 :: before, after) := by
  have hfirst : ¬([13, 10, 13, 10] : Bytes).isPrefixOf (13 :: 10 :: s) = true := by
    rw [List.isPrefixOf_iff_prefix]
    intro hstart
    obtain ⟨-, hstart⟩ := List.cons_prefix_cons.mp (List.cons_prefix_cons.mp hstart).2
    cases s with
    | nil => exact absurd (List.prefix_nil.mp hstart) (List.cons_ne_nil _ _)
    | cons b s => exact h (congrArg some (List.cons_prefix_cons.mp hstart).1.symm)
  have hsecond : ¬([13, 10, 13, 10] : Bytes).isPrefixOf (10 :: s) = true := by
    rw [List.isPrefixOf_iff_prefix]
    exact fun hstart => absurd (List.cons_prefix_cons.mp hstart).1 (by decide)
  rw [cut, if_neg hfirst, cut, if_neg hsecond, Option.map_map]
  rfl

/-- The first empty line is the one after the lines. -/
theorem cut_linesText (h : ∀ l ∈ lines, l ≠ [] ∧ 13 ∉ l) (hne : lines ≠ []) :
    ∃ header, cut [13, 10, 13, 10] (linesText lines ++ crlf ++ s) = some (header, s)
      ∧ header ++ crlf = linesText lines := by
  induction lines with
  | nil => exact absurd rfl hne
  | cons l lines ih =>
      obtain ⟨⟨-, hl⟩, hlines⟩ := List.forall_mem_cons.mp h
      have htext : linesText (l :: lines) ++ crlf ++ s
          = l ++ 13 :: 10 :: (linesText lines ++ crlf ++ s) := by
        simp only [linesText, List.flatMap_cons, crlf, List.append_assoc, List.cons_append,
          List.nil_append]
      rw [htext, cut_skip hl]
      cases lines with
      | nil => exact ⟨l, by simp [cut, linesText, crlf], by simp [linesText]⟩
      | cons l' lines =>
          obtain ⟨header, hcut, hheader⟩ := ih hlines (List.cons_ne_nil _ _)
          obtain ⟨hl', hnot⟩ := hlines l' List.mem_cons_self
          obtain ⟨b, t, rfl⟩ := List.exists_cons_of_ne_nil hl'
          have hhead : (linesText ((b :: t) :: lines) ++ crlf ++ s).head? ≠ some 13 :=
            fun heq => hnot (Option.some.inj heq ▸ List.mem_cons_self)
          refine ⟨l ++ 13 :: 10 :: header, by rw [cut_crlf hhead, hcut]; rfl, ?_⟩
          rw [List.append_assoc, List.cons_append, List.cons_append, hheader]
          simp only [linesText, List.flatMap_cons, crlf, List.append_assoc, List.cons_append,
            List.nil_append]

end Lines

/-- What no line has: the bytes of control, but for the tab. -/
def isControl (b : UInt8) : Bool := b < 32 && b ≠ 9

theorem not_isControl_of_isText {b : UInt8} (h : isText b = true) : isControl b = false := by
  rw [isText, Bool.or_eq_true, Bool.and_eq_true, decide_eq_true_iff, decide_eq_true_iff] at h
  rcases h with rfl | ⟨hle, -⟩
  · rfl
  · rw [isControl, decide_eq_false (UInt8.not_lt.mpr hle), Bool.false_and]

theorem not_isControl_of_isBlank {b : UInt8} (h : isBlank b = true) : isControl b = false := by
  rw [isBlank, Bool.or_eq_true, decide_eq_true_iff, decide_eq_true_iff] at h
  rcases h with rfl | rfl <;> rfl

theorem of_isToken {b : UInt8} (h : isToken b = true) : isControl b = false ∧ b ≠ 58 := by
  have hlow : 32 ≤ b ∧ b ≠ 58 := by
    simp only [isToken, Bool.or_eq_true, Bool.and_eq_true, decide_eq_true_iff, List.mem_cons,
      List.not_mem_nil, or_false, UInt8.le_iff_toNat_le, ← UInt8.toNat_inj, UInt8.reduceToNat,
      ne_eq] at h ⊢
    omega
  exact ⟨by rw [isControl, decide_eq_false (UInt8.not_lt.mpr hlow.1), Bool.false_and], hlow.2⟩

theorem colon_not_mem_lower {s : Bytes} (h : 58 ∉ s) : 58 ∉ lower s := by
  intro hmem
  obtain ⟨b, hb, hlower⟩ := List.mem_map.mp hmem
  split at hlower
  · next hletter =>
      simp only [UInt8.le_iff_toNat_le, ← UInt8.toNat_inj, UInt8.toNat_add, UInt8.reduceToNat]
        at hletter hlower
      omega
  · exact h (hlower ▸ hb)

namespace Field

variable (f : Field)

theorem not_control {b : UInt8} (hb : b ∈ f.line) : isControl b = false := by
  simp only [line, List.mem_append, List.mem_cons] at hb
  rcases hb with hname | rfl | hlead | hvalue | htrail
  · exact (of_isToken (f.name_token b hname)).1
  · rfl
  · exact not_isControl_of_isBlank (f.lead_blank b hlead)
  · exact not_isControl_of_isText (f.value_text b hvalue)
  · exact not_isControl_of_isBlank (f.trail_blank b htrail)

theorem colon_not_mem_name : 58 ∉ f.name := fun h => (of_isToken (f.name_token 58 h)).2 rfl

/-- A line begins as one of `Location` if it is one. -/
theorem begins_location_iff :
    lower (f.line.take 9) = locationName ++ [58] ↔ f.isNamed locationName = true := by
  have hline : lower f.line = lower f.name ++ 58 :: lower (f.lead ++ (f.value ++ f.trail)) := by
    rw [line, lower, List.map_append, List.map_cons]
    rfl
  rw [lower, List.map_take, ← lower, isNamed, decide_eq_true_iff]
  constructor
  · intro h
    have hsplit := List.take_append_drop 9 (lower f.line)
    rw [h, List.append_assoc, hline] at hsplit
    have hcut := congrArg (cut [58]) hsplit
    rw [List.singleton_append, cut_byte (by decide),
      cut_byte (colon_not_mem_lower f.colon_not_mem_name)] at hcut
    exact (Prod.mk.inj (Option.some.inj hcut)).1.symm
  · intro h
    rw [hline, h]
    rfl

/-- The blanks after the colon are skipped. -/
theorem drop_line (h : f.isNamed locationName = true) :
    (f.line.drop 9).dropWhile isBlank = f.value ++ f.trail := by
  have hlength : f.name.length = 8 := by
    rw [isNamed, decide_eq_true_iff, lower] at h
    exact (List.length_map _).symm.trans (congrArg List.length h)
  have hdrop : f.line.drop 9 = f.lead ++ (f.value ++ f.trail) := by
    have hnine : 9 = f.name.length + 1 := congrArg (· + 1) hlength.symm
    rw [line, hnine, ← List.drop_drop, List.drop_left]
    rfl
  rw [hdrop, List.dropWhile_append_of_pos f.lead_blank]
  have hstarts := f.value_starts
  cases hvalue : f.value with
  | nil =>
      rw [f.trail_nil hvalue]
      rfl
  | cons b s =>
      rw [hvalue] at hstarts
      have hb : isBlank b = false := Bool.not_eq_true' _ ▸ hstarts
      exact List.dropWhile_cons_of_neg (by rw [hb]; exact Bool.false_ne_true)

end Field

/-- A loop that keeps what the last item of a kind gives. -/
theorem foldl_last {α β : Type} (p : α → Bool) (g : α → β) (l : List α) (b : β) :
    l.foldl (fun b a => if p a = true then g a else b) b = (l.filter p).getLast?.elim b g := by
  induction l generalizing b with
  | nil => rfl
  | cons a l ih =>
      rw [List.foldl_cons, ih, List.filter_cons]
      split
      · rw [List.getLast?_cons]
        cases (l.filter p).getLast? <;> rfl
      · rfl

namespace Message

variable (m : Message)

theorem not_control {l : Bytes} (hl : l ∈ m.lines) : ∀ b ∈ l, isControl b = false := by
  intro b hb
  rcases List.mem_cons.mp hl with rfl | hl
  · rcases List.mem_append.mp hb with hstart | hend
    · have hall : ∀ b ∈ ([72, 84, 84, 80, 47, 49, 46, 49, 32] : Bytes), isControl b = false := by
        decide +kernel
      rcases List.mem_append.mp hstart with hhttp | hcode
      · exact hall b hhttp
      · have hlow := (visible_digits m.code b hcode).1
        rw [isControl, decide_eq_false (UInt8.not_lt.mpr (UInt8.le_of_lt hlow)), Bool.false_and]
    · rcases List.mem_cons.mp hend with rfl | hreason
      · rfl
      · exact not_isControl_of_isText (m.reason_text b hreason)
  · obtain ⟨f, -, rfl⟩ := List.mem_map.mp hl
    exact f.not_control hb

theorem line_ne_nil {l : Bytes} (hl : l ∈ m.lines) : l ≠ [] := by
  rcases List.mem_cons.mp hl with rfl | hl
  · exact List.cons_ne_nil _ _
  · obtain ⟨f, -, rfl⟩ := List.mem_map.mp hl
    exact List.append_ne_nil_of_right_ne_nil _ (List.cons_ne_nil _ _)

theorem last_location :
    (m.fields.filter (·.isNamed locationName)).getLast? = m.locationField := by
  have honce := m.location_once
  rw [locationField, ← List.head?_filter]
  generalize m.fields.filter (·.isNamed locationName) = l at honce ⊢
  match l, honce with
  | [], _ => rfl
  | [_], _ => rfl

/-- The value is taken with the blanks after it. -/
theorem locationOf_lines (cap : Nat) : locationOf (cap + 1) (linesText m.lines)
    = m.locationField.elim [] fun f => (f.value ++ f.trail).take cap := by
  have hplain : ∀ l ∈ m.lines, 13 ∉ l := fun l hl hmem => by
    cases m.not_control hl 13 hmem
  have hstatus : ¬lower (m.statusLine.take 9) = locationName ++ [58] := by
    rw [statusLine, List.append_assoc]
    exact of_decide_eq_false rfl
  have hstep : ∀ (location : Bytes) (f : Field),
      (if lower (f.line.take 9) = locationName ++ [58] then
        ((f.line.drop 9).dropWhile isBlank).take cap else location)
      = if f.isNamed locationName = true then (f.value ++ f.trail).take cap else location := by
    intro location f
    by_cases h : f.isNamed locationName = true
    · rw [if_pos h, if_pos (f.begins_location_iff.mpr h), f.drop_line h]
    · rw [if_neg h, if_neg (mt f.begins_location_iff.mp h)]
  have hlocation : locationOf (cap + 1) (linesText m.lines) = m.lines.foldl (fun location l =>
      if lower (l.take 9) = locationName ++ [58] then
        ((l.drop 9).dropWhile isBlank).take cap else location) [] := by
    rw [locationOf, crlfLines_linesText hplain]
    rfl
  rw [hlocation, lines, List.foldl_cons, if_neg hstatus, List.foldl_map]
  refine (congrArg (fun step => m.fields.foldl step []) (funext₂ hstep)).trans ?_
  rw [foldl_last (fun f : Field => f.isNamed locationName)
    (fun f => (f.value ++ f.trail).take cap), last_location]

theorem nul_not_mem_linesText : 0 ∉ linesText m.lines := by
  intro hmem
  obtain ⟨l, hl, hzero⟩ := List.mem_flatMap.mp hmem
  rcases List.mem_append.mp hzero with hzero | hzero
  · cases m.not_control hl 0 hzero
  · exact absurd hzero (by decide)

theorem cstr_text : cstr m.text = linesText m.lines ++ crlf ++ cstr m.body.text := by
  have hall : ∀ b ∈ linesText m.lines ++ crlf, (decide (b ≠ 0)) = true := by
    intro b hb
    refine decide_eq_true ?_
    rintro rfl
    rcases List.mem_append.mp hb with hb | hb
    · exact m.nul_not_mem_linesText hb
    · exact absurd hb (by decide)
  rw [text, cstr, List.takeWhile_append_of_pos hall]
  rfl

/-- The version is read as it is written. -/
theorem sscanf_version (s : Bytes) :
    Scanf.sscanf ([.literal 72, .literal 84, .literal 84, .literal 80, .literal 47, .int false]
        ++ [.literal 46, .int false, .blank, .int true])
      ([72, 84, 84, 80, 47, 49, 46, 49] ++ 32 :: s) = Scanf.sscanf [.blank, .int true] (32 :: s) :=
  rfl

theorem statusOf_text : statusOf m.text = m.code := by
  have hcode := m.code_short
  have htext : ∃ rest, cstr m.text
      = [72, 84, 84, 80, 47, 49, 46, 49] ++ 32 :: (digits 10 m.code ++ 32 :: rest) := by
    refine ⟨m.reason ++ (crlf ++ (linesText (m.fields.map Field.line) ++ (crlf ++ cstr m.body.text))),
      ?_⟩
    rw [cstr_text, lines, linesText, List.flatMap_cons, statusLine]
    simp only [List.append_assoc, List.cons_append, List.nil_append, linesText]
  obtain ⟨rest, htext⟩ := htext
  have hrest : ∀ b ∈ (32 :: rest : Bytes).head?, isDigit b = false := by
    rintro b ⟨⟩
    rfl
  have hnumber : Libc.strtol (32 :: (digits 10 m.code ++ 32 :: rest)) = m.code :=
    Scanf.strtol_spaces 1 (by omega) hrest
  have hint := @Scanf.sscanf_int [] true _ 1 (m.code : Int) hrest
  rw [Strconv.intText_natCast] at hint
  have hscan : Scanf.sscanf [.blank, .int true] (32 :: (digits 10 m.code ++ 32 :: rest))
      = [.int m.code] := by
    rw [Scanf.sscanf_blank_int]
    refine hint.trans ?_
    rw [← hnumber]
    rfl
  rw [statusOf, htext, statusFormats, List.findSome?_cons, sscanf_version, hscan]
  exact int32_eq (by omega) (by omega)

/-- What is made of a response. -/
theorem readResponse_text (cap : Nat) : readResponse (cap + 1) m.text
    = some ⟨m.code, m.locationField.elim [] fun f => (f.value ++ f.trail).take cap, m.body.text⟩ := by
  have hlines : ∀ l ∈ m.lines, l ≠ [] ∧ 13 ∉ l := fun l hl =>
    ⟨m.line_ne_nil hl, fun hmem => by cases m.not_control hl 13 hmem⟩
  obtain ⟨header, hcut, hheader⟩ := cut_linesText (s := cstr m.body.text) hlines
    (List.cons_ne_nil _ _)
  have hne : m.text ≠ [] := List.append_ne_nil_of_left_ne_nil
    (List.append_ne_nil_of_right_ne_nil _ (List.cons_ne_nil _ _)) _
  have hbody : m.text.drop (header.length + 4) = m.body.text := by
    rw [text, ← hheader]
    refine List.drop_left' ?_
    simp only [List.length_append]
    rfl
  rw [readResponse, if_neg hne, cstr_text, hcut]
  simp only [hbody, statusOf_text]
  rw [← locationOf_lines, ← hheader]
  rfl

theorem location_take_iff (cap : Nat) :
    (m.locationField.elim [] fun f => (f.value ++ f.trail).take cap) = m.location.take cap
      ↔ ∀ f ∈ m.locationField, f.trail = [] ∨ cap ≤ f.value.length := by
  rw [location]
  cases m.locationField with
  | none => exact iff_of_true List.take_nil.symm nofun
  | some f =>
      have htrail : (f.value ++ f.trail).take cap = f.value.take cap
          ↔ f.trail = [] ∨ cap ≤ f.value.length := by
        rw [List.take_append, List.append_right_eq_self, List.take_eq_nil_iff, Nat.sub_eq_zero_iff_le]
        exact or_comm
      rw [Option.elim_some, Option.elim_some, htrail]
      constructor
      · rintro h _ ⟨⟩
        exact h
      · exact fun h => h f rfl

end Message

/-- A body in chunks is longer than what it is of. -/
theorem Body.text_eq_entity_iff (b : Body) : b.text = b.entity ↔ b.isChunked = false := by
  cases b with
  | absent => exact iff_of_true rfl rfl
  | toClose data => exact iff_of_true rfl rfl
  | counted data => exact iff_of_true rfl rfl
  | chunked chunks last trailer =>
      refine iff_of_false (fun heq => ?_) Bool.noConfusion
      have hlength := congrArg List.length heq
      simp only [text, entity, List.length_append, List.length_flatMap] at hlength
      have hchunks : (chunks.map fun c => c.data.length).sum ≤ (chunks.map fun c =>
          c.line.length + crlf.length + c.data.length + crlf.length).sum := by
        refine List.sum_le_sum fun c _ => ?_
        omega
      have hend : crlf.length = 2 := rfl
      omega

/-! ## What is received -/

section Received

variable {server : Server} {mem : UrlBuffers} {url raw : Bytes} {parts : UrlParts} {cap : Nat}

/-- What comes back is read. -/
theorem httpGetOnce_returns_iff {r : Option Response} (hsplit : (mem.split url).Returns (some parts))
    (hserver : server (cstr parts.scheme = https) (cstr parts.host) parts.port
      (request (cstr parts.path) (cstr parts.host)) = some raw) :
    (httpGetOnce server mem cap url).Returns r ↔ r = readResponse cap raw := by
  rw [httpGetOnce, hsplit.bind_iff]
  simp only [hserver]
  exact returns_pure

/-- A response is taken for what it says exactly when its body is not in chunks and there are no
blanks after the value of `Location`, or none for which there is room. -/
theorem httpGetOnce_entity_iff (m : Message) (hsplit : (mem.split url).Returns (some parts))
    (hserver : server (cstr parts.scheme = https) (cstr parts.host) parts.port
      (request (cstr parts.path) (cstr parts.host)) = some m.text) :
    (httpGetOnce server mem (cap + 1) url).Returns
        (some ⟨m.code, m.location.take cap, m.body.entity⟩)
      ↔ m.body.isChunked = false
        ∧ ∀ f ∈ m.locationField, f.trail = [] ∨ cap ≤ f.value.length := by
  rw [httpGetOnce_returns_iff hsplit hserver, m.readResponse_text, Option.some.injEq,
    Response.mk.injEq, and_iff_right rfl, eq_comm, m.location_take_iff, eq_comm,
    m.body.text_eq_entity_iff, and_comm]

/-- `http://a/`. -/
def plainUrl : Bytes := http ++ schemeEnd ++ [97, 47]

theorem plainUrl_split (mem : UrlBuffers) : ∃ parts, (mem.split plainUrl).Returns (some parts) := by
  have hcut : cut schemeEnd (cstr plainUrl) = some (http, [97, 47]) := by decide
  exact mem.split_returns hcut (Or.inr rfl) (by decide)

theorem locationName_token : ∀ b ∈ locationName, isToken b = true := by
  decide +kernel

/-- `location: b`. -/
def locationB : Field where
  name := locationName
  lead := [32]
  value := [98]
  trail := []
  name_ne_nil := List.cons_ne_nil _ _
  name_token := locationName_token
  lead_blank _ hb := List.mem_singleton.mp hb ▸ rfl
  value_text _ hb := List.mem_singleton.mp hb ▸ rfl
  value_starts := rfl
  value_ends := rfl
  trail_blank := nofun
  trail_nil _ := rfl

/-- A redirect, with a byte that is zero for its body. -/
def redirectB : Message where
  code := 302
  reason := []
  fields := [locationB]
  body := .toClose [0]
  code_final := Nat.le_of_ble_eq_true rfl
  code_short := Nat.le_of_ble_eq_true rfl
  reason_text := nofun
  location_once := Nat.le_of_ble_eq_true rfl
  framed := ⟨rfl, fun _ hf => List.mem_singleton.mp hf ▸ ⟨rfl, rfl⟩⟩

theorem redirectB_entity :
    (httpGetOnce (fun _ _ _ _ => some redirectB.text) staleBuffers 2048 plainUrl).Returns
      (some ⟨302, [98], [0]⟩) := by
  obtain ⟨parts, hsplit⟩ := plainUrl_split staleBuffers
  refine (httpGetOnce_entity_iff redirectB hsplit rfl).mpr ⟨rfl, ?_⟩
  rintro f ⟨⟩
  exact Or.inl rfl

theorem codingName_token : ∀ b ∈ codingName, isToken b = true := by
  decide +kernel

theorem chunkedName_text : ∀ b ∈ chunkedName, isText b = true := by
  decide +kernel

/-- `transfer-encoding:chunked`. -/
def inChunks : Field where
  name := codingName
  lead := []
  value := chunkedName
  trail := []
  name_ne_nil := List.cons_ne_nil _ _
  name_token := codingName_token
  lead_blank := nofun
  value_text := chunkedName_text
  value_starts := rfl
  value_ends := rfl
  trail_blank := nofun
  trail_nil _ := rfl

/-- As many bytes as a digit says. -/
def digitChunk (digit : UInt8) (data : Bytes) (h : isHex digit = true)
    (hdata : hexNumber 0 [digit] = data.length) : Chunk where
  size := [digit]
  extension := []
  data := data
  size_ne_nil := List.cons_ne_nil _ _
  size_hex _ hb := List.mem_singleton.mp hb ▸ h
  size_eq := hdata
  extension_text := nofun
  extension_starts := rfl

/-- `abc` in a chunk. -/
def chunkedAbc : Message where
  code := 200
  reason := []
  fields := [inChunks]
  body := .chunked [digitChunk 51 [97, 98, 99] rfl rfl] (digitChunk 48 [] rfl rfl) []
  code_final := Nat.le_of_ble_eq_true rfl
  code_short := Nat.le_of_ble_eq_true rfl
  reason_text := nofun
  location_once := Nat.le_of_ble_eq_true rfl
  framed := ⟨rfl, ⟨inChunks, List.mem_singleton_self _, rfl⟩,
    fun _ hf => List.mem_singleton.mp hf ▸ ⟨rfl, fun _ => rfl⟩,
    fun _ hc => List.mem_singleton.mp hc ▸ List.cons_ne_nil _ _, rfl⟩

/-- The sizes of the chunks are taken for a part of the body. -/
theorem chunkedAbc_not_entity :
    ¬(httpGetOnce (fun _ _ _ _ => some chunkedAbc.text) staleBuffers 2048 plainUrl).Returns
      (some ⟨chunkedAbc.code, chunkedAbc.location, chunkedAbc.body.entity⟩) := by
  obtain ⟨parts, hsplit⟩ := plainUrl_split staleBuffers
  rw [httpGetOnce_returns_iff hsplit rfl, chunkedAbc.readResponse_text]
  intro h
  exact absurd (congrArg Response.body (Option.some.inj h)) (by decide)

end Received

end Tracep.Ca
