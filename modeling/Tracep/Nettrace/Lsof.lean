import Tracep.Lib.Cut
import Tracep.Lib.Decimal
import Tracep.Lib.Fresh

/-!
# What `lsof -F` prints

On macOS the net tracer reads lists of sockets: a line for each field, with
the letter of the field and its value. A `p` line begins a process and an
`f` line an open file of it, and an `n` line names what the file is. The
tracer keeps what the lines so far have said and takes a socket at an `n`
line (`readLine`); there are three copies of this reader, two in Go and one
in C, that differ in how they take the values (`Reader`).

A transcript is given by records (`ProcRecord`), and what a reader takes from
its lines are the sockets of the records, each with the fields of its own
(`sockets_transcript`).
-/

namespace Tracep.Nettrace.Lsof

open Strconv

/-! ## Names -/

namespace Go

/-- `splitConn`, at `->`. -/
def splitConn (s : Bytes) : Bytes × Bytes := (cut [45, 62] s).getD (s, [])

/-- `splitHostPort`: `*` is 42, `:` is 58, and the brackets are 91 and 93. -/
def splitHostPort (s : Bytes) : Bytes × Int :=
  if s = [] ∨ s = [42, 58, 42] then ([], 0)
  else if [91].isPrefixOf s then
    match cut [93, 58] s with
    | none => ([], 0)
    | some (before, port) => (before.drop 1, (atoi port).1)
  else
    match cutLast 58 s with
    | none => (s, 0)
    | some (ip, port) =>
        (if ip = [42] then [] else ip, if port = [42] then 0 else (atoi port).1)

/-- The ends that the name of a socket gives. -/
def ends (s : Bytes) : (Bytes × Int) × (Bytes × Int) :=
  let (src, dst) := splitConn s
  (splitHostPort src, splitHostPort dst)

end Go

/-! ## Readers -/

/-- `macConnKey`. -/
structure MacConnKey where
  pid : Int
  proto : Bytes
  src : Bytes
  dst : Bytes
  sport : Int
  dport : Int
deriving Repr, DecidableEq

/-- `macConn`. -/
structure MacConn where
  key : MacConnKey
  comm : Bytes
  uid : UInt32
deriving Repr, DecidableEq

/-- What the lines so far have said: `curPID`, `curComm`, `curUID` and `curProto`. -/
structure Cur where
  pid : Int
  comm : Bytes
  uid : UInt32
  proto : Bytes
deriving Repr, DecidableEq

/-- How the values are taken, given what they were before, and whether a socket without a port
counts. -/
structure Reader where
  pid : Int → Bytes → Int
  comm : Bytes → Bytes
  uid : UInt32 → Bytes → UInt32
  proto : Bytes → Bytes
  ends : Bytes → (Bytes × Int) × (Bytes × Int)
  unbound : Bool

namespace Reader

variable (r : Reader)

/-- The socket that an `n` line names. Files have a path, and no protocol. -/
def socket (cur : Cur) (body : Bytes) : Option MacConn :=
  if body = [] ∨ body.head? = some 47 ∨ cur.proto = [] then none
  else
    let ((sip, sport), (dip, dport)) := r.ends body
    if !r.unbound ∧ sport = 0 ∧ dport = 0 then none
    else some ⟨⟨cur.pid, cur.proto, sip, dip, sport, dport⟩, cur.comm, cur.uid⟩

/-- The field letters are `p` 112, `c` 99, `u` 117, `f` 102, `P` 80 and `n` 110. -/
def readField (cur : Cur) (field : UInt8) (body : Bytes) : Cur × Option MacConn :=
  if field = 112 then ({ cur with pid := r.pid cur.pid body, proto := [], uid := 0 }, none)
  else if field = 99 then ({ cur with comm := r.comm body }, none)
  else if field = 117 then ({ cur with uid := r.uid cur.uid body }, none)
  else if field = 102 then ({ cur with proto := [] }, none)
  else if field = 80 then ({ cur with proto := r.proto body }, none)
  else if field = 110 then (cur, r.socket cur body)
  else (cur, none)

/-- A line without a value is passed over. -/
def readLine (cur : Cur) (line : Bytes) : Cur × Option MacConn :=
  match line with
  | field :: b :: rest => r.readField cur field (b :: rest)
  | _ => (cur, none)

/-- The sockets that the lines name. -/
def sockets : Cur → List Bytes → List MacConn
  | _, [] => []
  | cur, line :: lines =>
      let (cur, conn) := r.readLine cur line
      conn.toList ++ sockets cur lines

end Reader

/-! ## Transcripts -/

/-- A value of a field. -/
abbrev Value := { s : Bytes // s ≠ [] }

structure FdRecord where
  fd : Value
  proto : Option Value
  name : Value

/-- The PID and the UID are numbers, and given as text. -/
structure ProcRecord where
  pid : Int
  pidText : Value
  pid_read : atoi pidText = (pid, true)
  comm : Value
  uid : UInt32
  uidText : Value
  uid_read : parseUint (2 ^ 32 - 1) uidText = .ok uid.toNat
  login : Option Value
  fds : List FdRecord

def FdRecord.lines (f : FdRecord) : List Bytes :=
  (102 :: f.fd.val) :: (f.proto.map fun proto => 80 :: proto.val).toList ++ [110 :: f.name.val]

def ProcRecord.lines (p : ProcRecord) : List Bytes :=
  (112 :: p.pidText.val) :: (99 :: p.comm.val) :: (117 :: p.uidText.val)
    :: (p.login.map fun login => 76 :: login.val).toList ++ p.fds.flatMap FdRecord.lines

def transcript (ps : List ProcRecord) : List Bytes := ps.flatMap ProcRecord.lines

/-- What a reader takes from the lines of an open file. -/
def FdRecord.socket (r : Reader) (p : ProcRecord) (f : FdRecord) : Option MacConn :=
  match f.proto with
  | none => none
  | some proto =>
      if f.name.val.head? = some 47 then none
      else
        let ((sip, sport), (dip, dport)) := r.ends f.name
        if !r.unbound ∧ sport = 0 ∧ dport = 0 then none
        else some ⟨⟨p.pid, proto, sip, dip, sport, dport⟩, r.comm p.comm, r.uid 0 p.uidText⟩

def ProcRecord.sockets (r : Reader) (p : ProcRecord) : List MacConn :=
  p.fds.filterMap (FdRecord.socket r p)

/-- The sockets of the records: the files with a protocol and a name that is no path. -/
def FdRecord.conn (p : ProcRecord) (f : FdRecord) : Option MacConn :=
  match f.proto with
  | none => none
  | some proto =>
      if f.name.val.head? = some 47 then none
      else
        let ((sip, sport), (dip, dport)) := Go.ends f.name
        some ⟨⟨p.pid, proto, sip, dip, sport, dport⟩, p.comm, p.uid⟩

def conns (ps : List ProcRecord) : List MacConn :=
  ps.flatMap fun p => p.fds.filterMap (FdRecord.conn p)

/-- A socket with a port. -/
def MacConn.bound (c : MacConn) : Bool := c.key.sport ≠ 0 ∨ c.key.dport ≠ 0

/-- The reader takes the PID and the protocols of a process as they are. -/
structure Reader.Plain (r : Reader) (p : ProcRecord) : Prop where
  pid : ∀ old, r.pid old p.pidText = p.pid
  proto : ∀ f ∈ p.fds, ∀ proto ∈ f.proto, r.proto proto = proto

/-- What the lines of a process have said before those of its files. -/
structure Cur.Of (r : Reader) (p : ProcRecord) (cur : Cur) : Prop where
  pid : cur.pid = p.pid
  comm : cur.comm = r.comm p.comm
  uid : cur.uid = r.uid 0 p.uidText

variable {r : Reader} {p : ProcRecord} {f : FdRecord} {cur : Cur} {rest : List Bytes}

theorem readLine_value (field : UInt8) (v : Value) :
    r.readLine cur (field :: v.val) = r.readField cur field v := by
  obtain ⟨b, s, hv⟩ := List.exists_cons_of_ne_nil v.property
  rw [hv, Reader.readLine]

/-- What some lines have said. -/
def Reader.after (r : Reader) (cur : Cur) (lines : List Bytes) : Cur :=
  lines.foldl (fun cur line => (r.readLine cur line).1) cur

theorem sockets_cons {line : Bytes} : r.sockets cur (line :: rest) =
    (r.readLine cur line).2.toList ++ r.sockets (r.readLine cur line).1 rest := rfl

theorem sockets_append {lines : List Bytes} : r.sockets cur (lines ++ rest) =
    r.sockets cur lines ++ r.sockets (r.after cur lines) rest := by
  induction lines generalizing cur with
  | nil => rfl
  | cons line lines ih =>
      rw [List.cons_append, sockets_cons, sockets_cons, ih, List.append_assoc]
      rfl

/-! ### Open files -/

/-- Only a protocol that the file has itself makes a socket of it. -/
theorem fd_sockets (hproto : ∀ proto ∈ f.proto, r.proto proto = proto)
    (hcur : cur.Of r p) :
    r.sockets cur f.lines = (f.socket r p).toList ∧ (r.after cur f.lines).Of r p := by
  obtain ⟨fd, proto, name⟩ := f
  obtain ⟨hpid, hcomm, huid⟩ := hcur
  cases proto with
  | none =>
      have hlines : FdRecord.lines ⟨fd, none, name⟩ = [102 :: fd.val, 110 :: name.val] := rfl
      rw [hlines]
      simp only [sockets_cons, Reader.after, List.foldl_cons, List.foldl_nil, readLine_value]
      refine ⟨?_, hpid, hcomm, huid⟩
      change (r.socket { cur with proto := [] } name).toList ++ [] = []
      rw [Reader.socket, if_pos (Or.inr (Or.inr rfl))]
      rfl
  | some proto =>
      have hlines : FdRecord.lines ⟨fd, some proto, name⟩ =
        [102 :: fd.val, 80 :: proto.val, 110 :: name.val] := rfl
      rw [hlines]
      simp only [sockets_cons, Reader.after, List.foldl_cons, List.foldl_nil, readLine_value]
      refine ⟨?_, hpid, hcomm, huid⟩
      change (r.socket { cur with proto := r.proto proto } name).toList ++ [] = _
      rw [List.append_nil, hproto proto rfl]
      simp only [Reader.socket, FdRecord.socket, or_iff_right name.property,
        or_iff_left proto.property, hpid, hcomm, huid]

theorem fds_sockets {fs : List FdRecord}
    (hproto : ∀ f ∈ fs, ∀ proto ∈ f.proto, r.proto proto = proto) (hcur : cur.Of r p) :
    r.sockets cur (fs.flatMap FdRecord.lines) = fs.filterMap (FdRecord.socket r p) := by
  induction fs generalizing cur with
  | nil => rfl
  | cons f fs ih =>
      obtain ⟨hf, hfs⟩ := List.forall_mem_cons.mp hproto
      obtain ⟨hsockets, hafter⟩ := fd_sockets hf hcur
      rw [List.flatMap_cons, sockets_append, hsockets, ih hfs hafter]
      cases h : f.socket r p with
      | none =>
          rw [List.filterMap_cons_none h]
          rfl
      | some conn =>
          rw [List.filterMap_cons_some h]
          rfl

/-! ### Processes -/

/-- The sockets of a process have nothing of what was said before. -/
theorem proc_sockets (hr : r.Plain p) (cur : Cur) : r.sockets cur p.lines = p.sockets r := by
  have hhead : ∀ login : Option Value,
      r.sockets cur ((112 :: p.pidText.val) :: (99 :: p.comm.val) :: (117 :: p.uidText.val)
        :: (login.map fun login => 76 :: login.val).toList) = []
      ∧ (r.after cur ((112 :: p.pidText.val) :: (99 :: p.comm.val) :: (117 :: p.uidText.val)
        :: (login.map fun login => 76 :: login.val).toList)).Of r p := by
    intro login
    cases login with
    | none =>
        simp only [Option.map_none, Option.toList_none, sockets_cons, Reader.after, List.foldl_cons,
          List.foldl_nil, readLine_value]
        exact ⟨rfl, hr.pid cur.pid, rfl, rfl⟩
    | some login =>
        simp only [Option.map_some, Option.toList_some, sockets_cons, Reader.after, List.foldl_cons,
          List.foldl_nil, readLine_value]
        exact ⟨rfl, hr.pid cur.pid, rfl, rfl⟩
  obtain ⟨hsockets, hafter⟩ := hhead p.login
  have hlines : p.lines = ((112 :: p.pidText.val) :: (99 :: p.comm.val) :: (117 :: p.uidText.val)
    :: (p.login.map fun login => 76 :: login.val).toList) ++ p.fds.flatMap FdRecord.lines := rfl
  rw [hlines, sockets_append, hsockets, fds_sockets hr.proto hafter]
  rfl

theorem sockets_transcript {ps : List ProcRecord} (hr : ∀ p ∈ ps, r.Plain p) (cur : Cur) :
    r.sockets cur (transcript ps) = ps.flatMap (ProcRecord.sockets r) := by
  induction ps generalizing cur with
  | nil => rfl
  | cons p ps ih =>
      have hlines : transcript (p :: ps) = p.lines ++ transcript ps := List.flatMap_cons
      obtain ⟨hp, hps⟩ := List.forall_mem_cons.mp hr
      rw [hlines, sockets_append, proc_sockets hp, ih hps, List.flatMap_cons]

/-! ### Sockets of records -/

/-- A reader that takes the values as they are takes the sockets with a port. -/
theorem socket_eq_conn (hends : f.name.val.head? ≠ some 47 → r.ends f.name = Go.ends f.name)
    (hcomm : r.comm p.comm = p.comm) (huid : r.uid 0 p.uidText = p.uid) (hbound : r.unbound = false) :
    f.socket r p = (f.conn p).filter MacConn.bound := by
  unfold FdRecord.socket FdRecord.conn
  cases f.proto with
  | none => rfl
  | some proto =>
      by_cases hpath : f.name.val.head? = some 47
      · simp only [if_pos hpath]
        rfl
      · simp only [if_neg hpath, hends hpath, hcomm, huid, hbound, Bool.not_false, true_and]
        by_cases h : (Go.ends f.name).1.2 = 0 ∧ (Go.ends f.name).2.2 = 0
        · rw [if_pos h, Option.filter_some, if_neg]
          simp only [MacConn.bound, h.1, h.2]
          decide
        · rw [if_neg h, Option.filter_some, if_pos]
          exact decide_eq_true (not_and_or.mp h)

/-- Of a reader that takes the sockets without a port as well, the keys. -/
theorem socket_key (hends : r.ends f.name = Go.ends f.name) (hbound : r.unbound = true) :
    (f.socket r p).map MacConn.key = (f.conn p).map MacConn.key := by
  unfold FdRecord.socket FdRecord.conn
  cases f.proto with
  | none => rfl
  | some proto =>
      simp only [hends, hbound, Bool.not_true]
      split
      · rfl
      · rw [if_neg fun h => Bool.false_ne_true h.1]
        rfl

/-! ## Addresses -/

/-- The text of an IP address, which has none of `*`, `>`, `[` and `]`. -/
structure Ip where
  text : Bytes
  plain : ∀ b ∈ text, b ∉ [(42 : UInt8), 62, 91, 93]

inductive Host where
  | any
  | bare (ip : Ip)
  | bracketed (ip : Ip)

/-- An end of a socket: a host and a port, where `*` stands for any. -/
structure Endpoint where
  host : Host
  port : Option UInt16

namespace Endpoint

def portText (e : Endpoint) : Bytes :=
  match e.port with
  | none => [42]
  | some port => digits 10 port.toNat

def text (e : Endpoint) : Bytes :=
  match e.host with
  | .any => 42 :: 58 :: e.portText
  | .bare ip => ip.text ++ 58 :: e.portText
  | .bracketed ip => 91 :: ip.text ++ 93 :: 58 :: e.portText

def addr (e : Endpoint) : Bytes :=
  match e.host with
  | .any => []
  | .bare ip => ip.text
  | .bracketed ip => ip.text

def portNumber (e : Endpoint) : Int :=
  match e.port with
  | none => 0
  | some port => port.toNat

end Endpoint

/-- The name of a socket: its end here, and the other one if it is connected. -/
def nameText (src : Endpoint) : Option Endpoint → Bytes
  | none => src.text
  | some dst => src.text ++ 45 :: 62 :: dst.text

namespace Ip

variable (ip : Ip) {b : UInt8}

theorem not_mem (hb : b ∈ [(42 : UInt8), 62, 91, 93]) : b ∉ ip.text :=
  fun hmem => ip.plain b hmem hb

theorem head_ne (port : Bytes) (hb : b ∈ [(42 : UInt8), 62, 91, 93]) :
    (ip.text ++ 58 :: port).head? ≠ some b := by
  intro hhead
  have hnot : b ∉ ip.text := ip.not_mem hb
  cases h : ip.text with
  | nil =>
      rw [h, List.nil_append, List.head?_cons, Option.some_inj] at hhead
      rw [← hhead] at hb
      revert hb
      decide
  | cons c s =>
      rw [h, List.cons_append, List.head?_cons, Option.some_inj] at hhead
      rw [h, hhead] at hnot
      exact hnot List.mem_cons_self

end Ip

namespace Endpoint

variable (e : Endpoint)

theorem not_mem_portText {b : UInt8} (hb : isDigit b = false) (hstar : b ≠ 42) :
    b ∉ e.portText := by
  unfold portText
  split
  · exact mt List.mem_singleton.mp hstar
  · exact not_mem_digits hb _

/-- There is no `>` in the text of an end. -/
theorem not_mem_text : 62 ∉ e.text := by
  have hport : 62 ∉ e.portText := e.not_mem_portText (by decide) (by decide)
  unfold text
  split
  · simp [hport]
  · next ip _ => simp [hport, Ip.not_mem ip]
  · next ip _ => simp [hport, Ip.not_mem ip]

/-- An end is any host and any port, or has a colon before the port, or a bracket and a colon. -/
theorem text_cases :
    e.text = [42, 58, 42] ∧ e.addr = [] ∧ e.portNumber = 0
      ∨ (∃ ip, e.text = ip ++ 58 :: e.portText ∧ e.text ≠ [42, 58, 42] ∧ e.text.head? ≠ some 91
        ∧ e.addr = if ip = [42] then [] else ip)
      ∨ ∃ ip, e.text = (91 :: ip) ++ 93 :: 58 :: e.portText ∧ 93 ∉ 91 :: ip ∧ e.addr = ip := by
  obtain ⟨host, port⟩ := e
  cases host with
  | any =>
      by_cases hport : port = none
      · rw [hport]
        exact Or.inl ⟨rfl, rfl, rfl⟩
      · refine Or.inr (Or.inl ⟨[42], rfl, ?_, ?_, rfl⟩)
        · intro heq
          obtain ⟨n, rfl⟩ := Option.ne_none_iff_exists'.mp hport
          have hdigits : digits 10 n.toNat = [42] := (List.cons.inj (List.cons.inj heq).2).2
          exact not_mem_digits (by decide) n.toNat (hdigits ▸ List.mem_singleton_self 42)
        · exact fun hhead => absurd (Option.some.inj hhead) (by decide)
  | bare ip =>
      refine Or.inr (Or.inl ⟨ip.text, rfl, ?_, Ip.head_ne ip _ (by decide), ?_⟩)
      · intro heq
        have hhead : (Endpoint.text ⟨.bare ip, port⟩).head? = some 42 := heq ▸ rfl
        exact Ip.head_ne ip _ (by decide) hhead
      · refine (if_neg ?_).symm
        intro heq
        exact ip.not_mem (by decide) (heq ▸ List.mem_singleton_self 42)
  | bracketed ip =>
      refine Or.inr (Or.inr ⟨ip.text, rfl, ?_, rfl⟩)
      simp [Ip.not_mem ip]

/-- The port of an end is read back. -/
theorem port_read : (if e.portText = [42] then 0 else (atoi e.portText).1) = e.portNumber := by
  unfold portText portNumber
  split
  · exact if_pos rfl
  · next port _ =>
      have hstar : digits 10 port.toNat ≠ [42] := by
        intro heq
        exact not_mem_digits (by decide) port.toNat (heq ▸ List.mem_singleton_self 42)
      have hlt := port.toNat_lt
      rw [if_neg hstar, atoi_digits (by omega)]

/-- Also after a bracket, where `*` is no number. -/
theorem atoi_portText : (atoi e.portText).1 = e.portNumber := by
  unfold portText portNumber
  split
  · decide
  · next port _ =>
      have hlt := port.toNat_lt
      rw [atoi_digits (by omega)]

theorem text_ne_nil : e.text ≠ [] := by
  rcases e.text_cases with ⟨htext, -⟩ | ⟨ip, htext, -⟩ | ⟨ip, htext, -⟩
  all_goals
    rw [htext]
    simp

theorem not_bracket {s : Bytes} (h : s.head? ≠ some 91) : ¬[91].isPrefixOf s = true := by
  rw [List.isPrefixOf_iff_prefix]
  rintro ⟨t, rfl⟩
  exact h rfl

theorem splitHostPort_text : Go.splitHostPort e.text = (e.addr, e.portNumber) := by
  have hcolon : 58 ∉ e.portText := e.not_mem_portText (by decide) (by decide)
  rcases e.text_cases with ⟨htext, haddr, hport⟩ | ⟨ip, htext, hany, hhead, haddr⟩
    | ⟨ip, htext, hip, haddr⟩
  · rw [htext, haddr, hport]
    rfl
  · rw [Go.splitHostPort, if_neg (not_or_intro e.text_ne_nil hany), if_neg (not_bracket hhead),
      haddr, ← e.port_read, htext, cutLast_append hcolon]
  · rw [htext, haddr, Go.splitHostPort, cut_pair (Or.inl hip) (by decide), ← e.atoi_portText]
    rfl

end Endpoint

theorem splitConn_nameText (src : Endpoint) (dst : Option Endpoint) :
    Go.splitConn (nameText src dst) = (src.text, (dst.map Endpoint.text).getD []) := by
  cases dst with
  | none =>
      rw [Go.splitConn, nameText, cut_none src.not_mem_text]
      rfl
  | some dst =>
      rw [Go.splitConn, nameText, cut_pair (Or.inr src.not_mem_text) (by decide)]
      rfl

/-- Where a name encodes ends, they are read from it. -/
theorem ends_nameText (src : Endpoint) (dst : Option Endpoint) :
    Go.ends (nameText src dst) =
      ((src.addr, src.portNumber), dst.elim ([], 0) fun dst => (dst.addr, dst.portNumber)) := by
  rw [Go.ends, splitConn_nameText]
  cases dst with
  | none => exact congrArg (·, ([], 0)) src.splitHostPort_text
  | some dst => exact Prod.ext src.splitHostPort_text dst.splitHostPort_text

end Tracep.Nettrace.Lsof
