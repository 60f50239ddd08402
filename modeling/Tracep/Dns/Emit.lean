import Tracep.Common.Columns
import Tracep.Dns.JsonEscape
import Tracep.Dns.Pending
import Tracep.Dns.Safety
import Tracep.Lib.AddressText

/-!
# What is printed for a pair

`emit` prints a record for a query and its response: the name asked for with
`-q`, a JSON object with `-j`, else columns. A JSON object is one line
whatever is in it (`json_oneLine`). The others are not quoted: labels, TXT
strings and names of processes go out as they are. So a record is one line
exactly when there is no newline in what is shown of them
(`emit_oneLine_iff`), and a label is enough to make it two.
-/

namespace Tracep.Dns

open Common (painted clrText shownPart goColumn cColumn newline_mem_painted newline_mem_clrText
  newline_mem_goColumn newline_mem_cColumn shownPart_of_le)

/-! ## The code -/

/-- The flags for the output. -/
structure Show where
  quiet : Bool
  json : Bool
  time : Bool
  flat : Bool
  useColor : Bool

/-- The texts of times, in which there is no newline: a time of day, a latency with one digit and
with three. -/
structure Texts (T : Type) where
  hms : T → Bytes
  latency : T → Bytes
  millis : T → Bytes
  hms_plain : ∀ t, 10 ∉ hms t
  latency_plain : ∀ t, 10 ∉ latency t
  millis_plain : ∀ t, 10 ∉ millis t

/-- `trunc(s, 15)` and `trunc15`: fourteen bytes and an ellipsis. -/
def trunc (s : Bytes) : Bytes := if s.length ≤ 15 then s else s.take 14 ++ [0xe2, 0x80, 0xa6]

/-- As much of the name of a process as is shown. -/
def Show.name (S : Show) (name : Bytes) : Bytes := if S.flat then name else trunc name

/-- `"→ "`. -/
def rightArrow : Bytes := [0xe2, 0x86, 0x92, 32]

variable {T : Type}

namespace Go

variable (S : Show) (X : Texts T) (ev : DnsEvent T)

/-- `c`. -/
def c (code s : Bytes) : Bytes := painted S.useColor code s

/-- A field of the record, in a column unless the output is flat. -/
def cell (width : Nat) (s : Bytes) : Bytes := (if S.flat then s else goColumn width s) ++ [32, 32]

def timeText : Bytes := if S.time then c S [51, 54] (X.hms ev.ts) ++ [32, 32] else []

def answersText : Bytes :=
  if ev.rcode = rcodeText 0 ∨ ev.rcode = [] then
    if 0 < ev.answers.length then c S [51, 52] (join [32] ev.answers) else []
  else c S [51, 49] ev.rcode

/-- `emitText`, without the newline at the end. -/
def recordText : Bytes :=
  timeText S X ev ++ cell S 7 (c S [51, 51] (intText ev.pid))
    ++ cell S 15 (c S [57, 54] (S.name ev.pname)) ++ cell S 5 (c S [51, 53] ev.qtype)
    ++ cell S 42 (c S [51, 50] ev.query) ++ c S [57, 48] rightArrow ++ answersText S ev
    ++ [32, 32] ++ c S [57, 48] (X.latency ev.latency)

/-- A record, with what `json.Marshal` makes of an event, with its time or not. -/
def record (marshal : Bool → DnsEvent T → Bytes) : Bytes :=
  if S.quiet then ev.query ++ [10]
  else if S.json then marshal S.time ev ++ [10]
  else recordText S X ev ++ [10]

/-- What `emit` writes. -/
def written (F : Filters) (marshal : Bool → DnsEvent T → Bytes) : Bytes :=
  match emit F ev with
  | none => []
  | some ev => record S X ev marshal

end Go

namespace C

variable (S : Show) (X : Texts T) (now : T) (e : Emission T)

/-- `clr`. -/
def clr (code s : Bytes) : Bytes := clrText S.useColor code s

/-- A field of the record, in a column unless the output is flat. -/
def cell (width : Nat) (s : Bytes) : Bytes := (if S.flat then s else cColumn width s) ++ [32, 32]

/-- `strncat` to the end of `joined`, with as many bytes as there is room for. -/
def strncat (joined s : Bytes) : Bytes := joined ++ s.take (2048 - joined.length - 1)

/-- The loop that joins the answers. -/
def joinAnswers : List Bytes → Bytes
  | [] => []
  | a :: answers => answers.foldl (fun joined b => strncat (strncat joined [32]) b) (strncat [] a)

def timeText : Bytes := if S.time then clr S [51, 54] (snprintf 32 (X.hms now)) ++ [32, 32] else []

/-- `rcode_str(resp->flags & 0x0F)`. -/
def rcode : Bytes := rcodeText (e.resp.flags &&& 0x0F)

def answersText : Bytes :=
  if rcode e = rcodeText 0 then
    if joinAnswers e.resp.answers ≠ [] then clr S [51, 52] (joinAnswers e.resp.answers) else []
  else clr S [51, 49] (rcode e)

/-- The record in columns, without the newline at the end. -/
def recordText : Bytes :=
  timeText S X now ++ cell S 7 (clr S [51, 51] (snprintf 16 (intText e.pid)))
    ++ cell S 15 (clr S [57, 54] (S.name e.name)) ++ cell S 5 (clr S [51, 53] e.qtype)
    ++ cell S 42 (clr S [51, 50] e.query) ++ clr S [57, 48] rightArrow ++ answersText S e
    ++ [32, 32] ++ clr S [57, 48] (snprintf 32 (X.latency e.latency))

/-- A member of the object. -/
def member (key value : Bytes) : Bytes := 34 :: key ++ [34, 58] ++ value

def quoted (s : Bytes) : Bytes := 34 :: s ++ [34]

/-- The JSON object, without the newline at the end. -/
def objectText : Bytes :=
  123 :: join [44] ([member (ascii ['p', 'i', 'd']) (intText e.pid),
    member (ascii ['n', 'a', 'm', 'e']) (quoted (jsonWritten 256 e.name)),
    member (ascii ['t', 'y', 'p', 'e']) (quoted e.qtype),
    member (ascii ['q', 'u', 'e', 'r', 'y']) (quoted (jsonWritten 600 e.query)),
    member (ascii ['a', 'n', 's', 'w', 'e', 'r', 's'])
      (91 :: join [44] (e.resp.answers.map fun a => quoted (jsonWritten 600 a)) ++ [93]),
    member (ascii ['r', 'c', 'o', 'd', 'e']) (quoted (rcode e)),
    member (ascii ['l', 'a', 't', 'e', 'n', 'c', 'y', '_', 'm', 's']) (X.millis e.latency)]
    ++ if S.time then [member (ascii ['t', 's']) (quoted (snprintf 32 (X.hms now)))] else [])
    ++ [125]

/-- A record that is written at some time. -/
def record : Bytes :=
  if S.quiet then e.query ++ [10]
  else if S.json then objectText S X now e ++ [10]
  else recordText S X now e ++ [10]

/-- What `emit` writes. -/
def written (F : Filters) : Bytes :=
  match emit F e with
  | none => []
  | some e => record S X now e

end C

/-! ## Newlines in a record -/

section Newlines

theorem newline_not_mem_digits (n : Nat) : 10 ∉ digits 10 n := Strconv.not_mem_digits rfl n

theorem newline_not_mem_intText (n : Int) : 10 ∉ intText n :=
  Strconv.not_mem_intText rfl (by decide) n

theorem newline_not_mem_qtypeText (t : UInt16) : 10 ∉ qtypeText t := by
  unfold qtypeText
  repeat' split
  any_goals decide
  rw [List.mem_append, or_iff_right (by decide)]
  exact newline_not_mem_digits _

theorem newline_not_mem_rcodeText (rcode : UInt16) : 10 ∉ rcodeText rcode := by
  unfold rcodeText
  repeat' split
  any_goals decide
  rw [List.mem_append, or_iff_right (by decide)]
  exact newline_not_mem_digits _

/-- `NOERROR` is the text of no other code. -/
theorem rcodeText_eq_iff (rcode : UInt16) : rcodeText rcode = rcodeText 0 ↔ rcode &&& 0xF = 0 := by
  constructor
  · intro h
    by_contra hne
    rw [rcodeText, if_neg hne] at h
    repeat' split at h
    all_goals first
      | exact absurd h (by decide)
      | exact absurd (List.cons.inj h).1 (by decide)
  · intro h
    rw [rcodeText, if_pos h]
    rfl

theorem rcodeText_masked (flags : UInt16) :
    rcodeText (flags &&& 0xF) = rcodeText 0 ↔ flags &&& 0xF = 0 := by
  rw [rcodeText_eq_iff, UInt16.and_assoc, UInt16.and_self]

theorem rcodeText_ne_nil (rcode : UInt16) : rcodeText rcode ≠ [] := by
  unfold rcodeText
  repeat' split
  any_goals decide
  exact List.append_ne_nil_of_left_ne_nil (by decide) _

theorem newline_mem_join {sep : Bytes} (h : 10 ∉ sep) {xs : List Bytes} :
    10 ∈ join sep xs ↔ ∃ x ∈ xs, 10 ∈ x := by
  constructor
  · intro hmem
    exact (mem_join hmem).resolve_left h
  · rintro ⟨x, hx, hmem⟩
    exact mem_join_of_mem hx hmem

end Newlines

namespace Go

variable {S : Show} {X : Texts T} {ev : DnsEvent T} {code s : Bytes} {width : Nat}

theorem newline_mem_c (h : 10 ∉ code) : 10 ∈ c S code s ↔ 10 ∈ s := newline_mem_painted h

theorem newline_mem_cell : 10 ∈ cell S width s ↔ 10 ∈ s := by
  rw [cell, List.mem_append, or_iff_left (by decide)]
  split
  · rfl
  · exact newline_mem_goColumn

theorem newline_not_mem_timeText : 10 ∉ timeText S X ev := by
  rw [timeText]
  split
  · rw [List.mem_append, or_iff_left (by decide), newline_mem_c (by decide)]
    exact X.hms_plain _
  · exact List.not_mem_nil

theorem newline_mem_answersText (h : 10 ∉ ev.rcode) : 10 ∈ answersText S ev ↔
    (ev.rcode = rcodeText 0 ∨ ev.rcode = []) ∧ ∃ a ∈ ev.answers, 10 ∈ a := by
  rw [answersText]
  split
  · next hok =>
      rw [and_iff_right hok]
      split
      · rw [newline_mem_c (by decide), newline_mem_join (by decide)]
      · next hnone =>
          rw [List.length_eq_zero_iff.mp (Nat.eq_zero_of_not_pos hnone)]
          exact iff_of_false List.not_mem_nil fun ⟨_, hmem, _⟩ => List.not_mem_nil hmem
  · next herr =>
      rw [newline_mem_c (by decide)]
      exact iff_of_false h fun hboth => herr hboth.1

/-- Where a newline in a record can come from. -/
theorem newline_mem_recordText (hqtype : 10 ∉ ev.qtype) (hrcode : 10 ∉ ev.rcode) :
    10 ∈ recordText S X ev ↔ 10 ∈ S.name ev.pname ∨ 10 ∈ ev.query
      ∨ (ev.rcode = rcodeText 0 ∨ ev.rcode = []) ∧ ∃ a ∈ ev.answers, 10 ∈ a := by
  have hpid : 10 ∉ cell S 7 (c S [51, 51] (intText ev.pid)) := by
    rw [newline_mem_cell, newline_mem_c (by decide)]
    exact newline_not_mem_intText _
  have htype : 10 ∉ cell S 5 (c S [51, 53] ev.qtype) := by
    rwa [newline_mem_cell, newline_mem_c (by decide)]
  have harrow : 10 ∉ c S [57, 48] rightArrow := by
    rw [newline_mem_c (by decide)]
    decide
  have hlatency : 10 ∉ c S [57, 48] (X.latency ev.latency) := by
    rw [newline_mem_c (by decide)]
    exact X.latency_plain _
  have hblanks : 10 ∉ [32, (32 : UInt8)] := by decide
  have hname : 10 ∈ cell S 15 (c S [57, 54] (S.name ev.pname)) ↔ 10 ∈ S.name ev.pname := by
    rw [newline_mem_cell, newline_mem_c (by decide)]
  have hquery : 10 ∈ cell S 42 (c S [51, 50] ev.query) ↔ 10 ∈ ev.query := by
    rw [newline_mem_cell, newline_mem_c (by decide)]
  simp only [recordText, List.mem_append, newline_not_mem_timeText, hpid, htype, harrow, hlatency,
    hblanks, hname, hquery, newline_mem_answersText hrcode, false_or, or_false, or_assoc]

/-- The name asked for has no newline, and unless nothing else is shown neither have the name of
the process, as far as it is shown, and the answers, if they are. -/
def Plain (S : Show) (r q : Capture DnsMsg T) : Prop :=
  10 ∉ q.msg.question ∧ (S.quiet = false → 10 ∉ S.name (q.owner q.src).2
    ∧ (r.msg.flags &&& 0xF = 0 → ∀ a ∈ r.msg.answers, 10 ∉ a))

variable [Sub T] [Zero T]

theorem written_report {F : Filters} {marshal : Bool → DnsEvent T → Bytes}
    {r q : Capture DnsMsg T} (hwanted : wanted F q = true) :
    written S X (report r q) F marshal = record S X (report r q) marshal := by
  rw [written, emit_report, if_pos hwanted]

theorem rcode_report (r q : Capture DnsMsg T) :
    (report r q).rcode = rcodeText 0 ∨ (report r q).rcode = [] ↔ r.msg.flags &&& 0xF = 0 := by
  have hcode : (report r q).rcode = rcodeText (r.msg.flags &&& 0xF) := rfl
  rw [hcode, or_iff_left (rcodeText_ne_nil _), rcodeText_masked]

theorem record_oneLine_iff {marshal : Bool → DnsEvent T → Bytes} (r q : Capture DnsMsg T)
    (hmode : S.quiet = true ∨ S.json = false) :
    OneLine (record S X (report r q) marshal) ↔ Plain S r q := by
  rw [record, Plain]
  cases hquiet : S.quiet with
  | true =>
      rw [if_pos rfl, oneLine_snoc]
      exact (and_iff_left fun h => Bool.noConfusion h).symm
  | false =>
      have hjson : S.json = false := hmode.resolve_left (Bool.eq_false_iff.mp hquiet)
      rw [hjson, if_neg Bool.false_ne_true, if_neg Bool.false_ne_true, oneLine_snoc,
        newline_mem_recordText (newline_not_mem_qtypeText _) (newline_not_mem_rcodeText _),
        rcode_report, not_or, not_or, not_and]
      constructor
      · rintro ⟨hname, hquery, hanswers⟩
        exact ⟨hquery, fun _ => ⟨hname, fun hok a ha h => hanswers hok ⟨a, ha, h⟩⟩⟩
      · rintro ⟨hquery, hshown⟩
        obtain ⟨hname, hanswers⟩ := hshown rfl
        exact ⟨hname, hquery, fun hok ⟨a, ha, h⟩ => hanswers hok a ha h⟩

end Go

namespace C

variable {S : Show} {X : Texts T} {now : T} {e : Emission T} {code s : Bytes} {width : Nat}

/-! ### The answers joined -/

theorem strncat_take (s t : Bytes) : strncat (s.take 2047) t = (s ++ t).take 2047 := by
  have hroom : 2048 - (s.take 2047).length - 1 = 2047 - (s.take 2047).length := by omega
  rw [strncat, hroom, ← take_append_take, List.take_append, List.take_take, Nat.min_self]

/-- The answers with blanks between them, as far as there is room. -/
theorem joinAnswers_eq (answers : List Bytes) :
    joinAnswers answers = (join [32] answers).take 2047 := by
  have hloop : ∀ (answers : List Bytes) (a : Bytes),
      answers.foldl (fun joined b => strncat (strncat joined [32]) b) (a.take 2047)
        = (join [32] (a :: answers)).take 2047 := by
    intro answers
    induction answers with
    | nil => exact fun a => rfl
    | cons b answers ih =>
        intro a
        rw [List.foldl_cons, strncat_take, strncat_take, ih]
        cases answers with
        | nil => rfl
        | cons c answers => simp only [join, List.append_assoc]
  cases answers with
  | nil => rfl
  | cons a answers => exact hloop answers a

/-! ### The record -/

theorem newline_mem_clr (hlen : code.length = 2) (h : 10 ∉ code) :
    10 ∈ clr S code s ↔ 10 ∈ shownPart S.useColor s := newline_mem_clrText hlen h

theorem newline_not_mem_clr (hlen : code.length = 2) (h : 10 ∉ code) (hs : 10 ∉ s) :
    10 ∉ clr S code s := by
  rw [newline_mem_clr hlen h, shownPart]
  split
  · exact fun hmem => hs (List.mem_of_mem_take hmem)
  · exact hs

theorem newline_mem_cell : 10 ∈ cell S width s ↔ 10 ∈ s := by
  rw [cell, List.mem_append, or_iff_left (by decide)]
  split
  · rfl
  · exact newline_mem_cColumn

theorem newline_not_mem_snprintf {size : Nat} (h : 10 ∉ s) : 10 ∉ snprintf size s :=
  fun hmem => h (List.mem_of_mem_take hmem)

theorem newline_not_mem_timeText : 10 ∉ timeText S X now := by
  rw [timeText]
  split
  · rw [List.mem_append, or_iff_left (by decide)]
    exact newline_not_mem_clr rfl (by decide) (newline_not_mem_snprintf (X.hms_plain _))
  · exact List.not_mem_nil

theorem newline_mem_answersText : 10 ∈ answersText S e ↔
    e.resp.flags &&& 0xF = 0 ∧ 10 ∈ shownPart S.useColor ((join [32] e.resp.answers).take 2047) := by
  have hcode : rcode e = rcodeText 0 ↔ e.resp.flags &&& 0xF = 0 := by
    rw [rcode, rcodeText_masked]
  rw [answersText, ← joinAnswers_eq]
  split
  · next hok =>
      rw [and_iff_right (hcode.mp hok)]
      split
      · rw [newline_mem_clr rfl (by decide)]
      · next hnone =>
          rw [not_not.mp hnone, shownPart_of_le (Nat.zero_le _)]
  · next herr =>
      refine iff_of_false ?_ fun hboth => herr (hcode.mpr hboth.1)
      exact newline_not_mem_clr rfl (by decide) (newline_not_mem_rcodeText _)

/-- Where a newline in a record can come from. -/
theorem newline_mem_recordText (hqtype : 10 ∉ e.qtype) (hname : e.name.length ≤ 63)
    (hquery : e.query.length ≤ 255) : 10 ∈ recordText S X now e ↔
      10 ∈ S.name e.name ∨ 10 ∈ e.query ∨ e.resp.flags &&& 0xF = 0
        ∧ 10 ∈ shownPart S.useColor ((join [32] e.resp.answers).take 2047) := by
  have hpid : 10 ∉ cell S 7 (clr S [51, 51] (snprintf 16 (intText e.pid))) := by
    rw [newline_mem_cell]
    exact newline_not_mem_clr rfl (by decide) (newline_not_mem_snprintf (newline_not_mem_intText _))
  have htype : 10 ∉ cell S 5 (clr S [51, 53] e.qtype) := by
    rw [newline_mem_cell]
    exact newline_not_mem_clr rfl (by decide) hqtype
  have harrow : 10 ∉ clr S [57, 48] rightArrow := newline_not_mem_clr rfl (by decide) (by decide)
  have hlatency : 10 ∉ clr S [57, 48] (snprintf 32 (X.latency e.latency)) :=
    newline_not_mem_clr rfl (by decide) (newline_not_mem_snprintf (X.latency_plain _))
  have hblanks : 10 ∉ [32, (32 : UInt8)] := by decide
  have hlen : (S.name e.name).length ≤ 1018 := by
    rw [Show.name, trunc]
    repeat' split
    · omega
    · omega
    · rw [List.length_append, List.length_take]
      exact Nat.le_trans (Nat.add_le_add_right (Nat.min_le_left _ _) _) (by decide)
  have hshown : 10 ∈ cell S 15 (clr S [57, 54] (S.name e.name)) ↔ 10 ∈ S.name e.name := by
    rw [newline_mem_cell, newline_mem_clr rfl (by decide), shownPart_of_le hlen]
  have hasked : 10 ∈ cell S 42 (clr S [51, 50] e.query) ↔ 10 ∈ e.query := by
    rw [newline_mem_cell, newline_mem_clr rfl (by decide), shownPart_of_le (by omega)]
  simp only [recordText, List.mem_append, newline_not_mem_timeText, hpid, htype, harrow, hlatency,
    hblanks, hshown, hasked, newline_mem_answersText, false_or, or_false, or_assoc]

/-- The name asked for has no newline where it fits its slot, and unless nothing else is shown
neither have the name of the process, as far as it is shown, and the answers, if they are. -/
def Plain (S : Show) (r q : Capture DnsMsg T) : Prop :=
  10 ∉ snprintf 256 q.msg.question ∧ (S.quiet = false →
    10 ∉ S.name (snprintf 64 (q.owner q.src).2) ∧ (r.msg.flags &&& 0xF = 0 →
      10 ∉ shownPart S.useColor ((join [32] r.msg.answers).take 2047)))

variable [Sub T]

theorem written_report {F : Filters} {r q : Capture DnsMsg T} (hwanted : wanted F q = true) :
    written S X now (report r q) F = record S X now (report r q) := by
  rw [written, emit_report, if_pos hwanted]

theorem record_oneLine_iff (r q : Capture DnsMsg T) (hmode : S.quiet = true ∨ S.json = false) :
    OneLine (record S X now (report r q)) ↔ Plain S r q := by
  rw [record, Plain]
  cases hquiet : S.quiet with
  | true =>
      rw [if_pos rfl, oneLine_snoc]
      exact (and_iff_left fun h => Bool.noConfusion h).symm
  | false =>
      have hjson : S.json = false := hmode.resolve_left (Bool.eq_false_iff.mp hquiet)
      rw [hjson, if_neg Bool.false_ne_true, if_neg Bool.false_ne_true, oneLine_snoc,
        newline_mem_recordText (newline_not_mem_snprintf (newline_not_mem_qtypeText _))
          (List.length_take_le _ _) (List.length_take_le _ _), not_or, not_or, not_and]
      constructor
      · rintro ⟨hname, hquery, hanswers⟩
        exact ⟨hquery, fun _ => ⟨hname, hanswers⟩⟩
      · rintro ⟨hquery, hshown⟩
        obtain ⟨hname, hanswers⟩ := hshown rfl
        exact ⟨hname, hquery, hanswers⟩

/-! ### The object -/

omit [Sub T] in
theorem newline_not_mem_jsonWritten (cap : Nat) (s : Bytes) : 10 ∉ jsonWritten cap s := fun hmem =>
  absurd ((Json.chars_of_unescape (unescape_jsonText _)).le 10 hmem) (by decide)

omit [Sub T] in
theorem newline_not_mem_quoted (h : 10 ∉ s) : 10 ∉ quoted s := by
  rw [quoted, List.mem_append, List.mem_cons, or_iff_left (by decide), or_iff_right (by decide)]
  exact h

omit [Sub T] in
theorem newline_not_mem_member {key : Bytes} (hkey : 10 ∉ key) (h : 10 ∉ s) :
    10 ∉ member key s := by
  rw [member, List.mem_append, List.mem_append, List.mem_cons]
  rintro (((hmem | hmem) | hmem) | hmem)
  · exact absurd hmem (by decide)
  · exact hkey hmem
  · exact absurd hmem (by decide)
  · exact h hmem

omit [Sub T] in
theorem newline_not_mem_objectText (hqtype : 10 ∉ e.qtype) : 10 ∉ objectText S X now e := by
  have hanswers : 10 ∉ join [44] (e.resp.answers.map fun a => quoted (jsonWritten 600 a)) := by
    rw [newline_mem_join (by decide)]
    rintro ⟨x, hx, hmem⟩
    obtain ⟨a, -, rfl⟩ := List.mem_map.mp hx
    exact newline_not_mem_quoted (newline_not_mem_jsonWritten 600 a) hmem
  have hlist : 10 ∉ 91 :: join [44] (e.resp.answers.map fun a => quoted (jsonWritten 600 a))
      ++ [(93 : UInt8)] := by
    rw [List.mem_append, List.mem_cons, or_iff_left (by decide), or_iff_right (by decide)]
    exact hanswers
  rw [objectText, List.mem_append, List.mem_cons, or_iff_left (by decide), or_iff_right (by decide),
    newline_mem_join (by decide)]
  rintro ⟨x, hx, hmem⟩
  refine absurd hmem ?_
  rcases List.mem_append.mp hx with hx | hx
  · simp only [List.mem_cons, List.not_mem_nil, or_false] at hx
    rcases hx with rfl | rfl | rfl | rfl | rfl | rfl | rfl
    all_goals refine newline_not_mem_member (by decide) ?_
    · exact newline_not_mem_intText _
    · exact newline_not_mem_quoted (newline_not_mem_jsonWritten _ _)
    · exact newline_not_mem_quoted hqtype
    · exact newline_not_mem_quoted (newline_not_mem_jsonWritten _ _)
    · exact hlist
    · exact newline_not_mem_quoted (newline_not_mem_rcodeText _)
    · exact X.millis_plain _
  · split at hx
    · rw [List.mem_singleton.mp hx]
      exact newline_not_mem_member (by decide)
        (newline_not_mem_quoted (newline_not_mem_snprintf (X.hms_plain _)))
    · cases hx

/-- With `-j` a record is one line. -/
theorem json_oneLine (r q : Capture DnsMsg T) (hquiet : S.quiet = false) (hjson : S.json = true) :
    OneLine (record S X now (report r q)) := by
  rw [record, hquiet, hjson, if_neg Bool.false_ne_true, if_pos rfl, oneLine_snoc]
  exact newline_not_mem_objectText (newline_not_mem_snprintf (newline_not_mem_qtypeText _))

end C

/-! ## Both ports -/

/-- With `-q` and in columns, `emit` writes one line for a pair that passes the filters exactly if
no newline is in what is shown of it. -/
theorem emit_oneLine_iff [Sub T] [Zero T] (F : Filters) (S : Show) (X : Texts T)
    (marshal : Bool → Go.DnsEvent T → Bytes) (hmode : S.quiet = true ∨ S.json = false) :
    (∀ r q : Capture Go.DnsMsg T, Go.wanted F q = true →
        (OneLine (Go.written S X (Go.report r q) F marshal) ↔ Go.Plain S r q))
      ∧ ∀ (now : T) (r q : Capture C.DnsMsg T), C.wanted F q = true →
        (OneLine (C.written S X now (C.report r q) F) ↔ C.Plain S r q) := by
  constructor
  · intro r q hwanted
    rw [Go.written_report hwanted]
    exact Go.record_oneLine_iff r q hmode
  · intro now r q hwanted
    rw [C.written_report hwanted]
    exact C.record_oneLine_iff r q hmode

/-! ### A label with a newline -/

/-- A query or a response for the address of `a.b`, where the dot is a newline in a label. -/
def newlineBytes (flags : Bytes) : Bytes :=
  [0, 1] ++ flags ++ [0, 1, 0, 0, 0, 0, 0, 0, 3, 97, 10, 98, 0, 0, 1, 0, 1]

def noFilters : Filters := ⟨[], [], [], []⟩

def quietOutput : Show := ⟨true, false, false, false, false⟩

theorem newline_not_mem_zero : ∀ _ : Int, 10 ∉ [(48 : UInt8)] := fun _ => by decide

def zeroTexts : Texts Int :=
  ⟨fun _ => [48], fun _ => [48], fun _ => [48], newline_not_mem_zero, newline_not_mem_zero,
    newline_not_mem_zero⟩

/-- What is sent from one port to the other, when no process is found. -/
def captured {M : Type} (msg : M) (src dst : UInt16) : Capture M Int :=
  ⟨msg, src, dst, 0, fun _ => (0, [])⟩

theorem newline_not_oneLine :
    (∃ mq mr, (Go.parseDNS (newlineBytes [1, 0])).Returns (some mq)
        ∧ (Go.parseDNS (newlineBytes [129, 128])).Returns (some mr)
        ∧ ¬OneLine (Go.written quietOutput zeroTexts
          (Go.report (captured mr 53 5353) (captured mq 5353 53)) noFilters fun _ _ => []))
      ∧ ∃ mq mr, (C.parseDns .standard .zeroed (newlineBytes [1, 0])).Returns (some mq)
        ∧ (C.parseDns .standard .zeroed (newlineBytes [129, 128])).Returns (some mr)
        ∧ ¬OneLine (C.written quietOutput zeroTexts 0
          (C.report (captured mr 53 5353) (captured mq 5353 53)) noFilters) := by
  constructor
  · refine ⟨⟨1, 0x100, [97, 10, 98], 1, []⟩, ⟨1, 0x8180, [97, 10, 98], 1, []⟩, ⟨9, by decide⟩,
      ⟨9, by decide⟩, ?_⟩
    rw [Go.written_report rfl, Go.record_oneLine_iff _ _ (Or.inl rfl)]
    exact fun hplain => absurd hplain.1 (by decide)
  · refine ⟨⟨1, 0x100, 1, [97, 10, 98], [], Nat.zero_le _⟩, ⟨1, 0x8180, 1, [97, 10, 98], [],
      Nat.zero_le _⟩, ⟨9, by decide +kernel⟩, ⟨9, by decide +kernel⟩, ?_⟩
    rw [C.written_report rfl, C.record_oneLine_iff _ _ (Or.inl rfl)]
    exact fun hplain => absurd hplain.1 (by decide)

def columnsOutput : Show := ⟨false, false, true, false, true⟩

/-- The address of `a` is `1.2.3.4`. -/
theorem address_oneLine :
    OneLine (Go.written columnsOutput zeroTexts (Go.report
        (captured ⟨1, 0x8180, [97], 1, [[49, 46, 50, 46, 51, 46, 52]]⟩ 53 5353)
        (captured ⟨1, 0x100, [97], 1, []⟩ 5353 53)) noFilters fun _ _ => [])
      ∧ OneLine (C.written columnsOutput zeroTexts 0 (C.report
        (captured ⟨1, 0x8180, 1, [97], [[49, 46, 50, 46, 51, 46, 52]], Nat.le_of_ble_eq_true rfl⟩
          53 5353) (captured ⟨1, 0x100, 1, [97], [], Nat.zero_le _⟩ 5353 53)) noFilters) := by
  obtain ⟨hgo, hc⟩ := emit_oneLine_iff noFilters columnsOutput zeroTexts (fun _ _ => [])
    (Or.inr rfl)
  constructor
  · exact (hgo _ _ rfl).mpr ⟨by decide, fun _ => ⟨by decide, fun _ => by decide⟩⟩
  · exact (hc 0 _ _ rfl).mpr ⟨by decide, fun _ => ⟨by decide, fun _ => by decide⟩⟩

end Tracep.Dns
