import Tracep.Exectrace.Dispatch

/-!
# What a receive buffer delivers

The C walk keeps its offset inside the buffer and stands, at every
iteration, before what is left after the messages it has come to
(`C.dispatchStep_spec`). So it makes the calls of all messages present, one
after another (`C.dispatchNlMsg_returns`), and a batch of well-formed
messages comes out as its exec and exit events (`C.dispatchNlMsg_batch`).

The Go port makes the same calls from a buffer that splits into messages,
and none from any other. The ports agree on a buffer exactly when it splits
or none of its messages carries an event (`dispatchNlMsg_agree_iff`).
-/

namespace Tracep.Exectrace

open Exec Relation Netlink

/-! ## The C walk -/

namespace C

variable {data : Bytes} {s : Dispatch}

/-- What is left of the buffer. -/
theorem total_sub_off (hdata : data.length + 3 < 2 ^ 32) (hoff : s.off.toNat ≤ data.length) :
    (UInt64.ofNat data.length - s.off).toNat = (data.drop s.off.toNat).length := by
  have htotal : (UInt64.ofNat data.length).toNat = data.length :=
    UInt64.toNat_ofNat_of_lt' (show data.length < 2 ^ 64 by omega)
  have hle : s.off ≤ UInt64.ofNat data.length := by
    rw [UInt64.le_iff_toNat_le, htotal]
    exact hoff
  rw [UInt64.toNat_sub_of_le _ _ hle, htotal, List.length_drop]

/-- The check on the header is made right: it refuses what is no message. -/
theorem refuses_iff (hdata : data.length + 3 < 2 ^ 32) (hoff : s.off.toNat ≤ data.length) :
    leWord32 (data.drop s.off.toNat) 0 < 16
        ∨ (leWord32 (data.drop s.off.toNat) 0).toUInt64 > .ofNat data.length - s.off
      ↔ ¬Present (data.drop s.off.toNat) := by
  rw [UInt32.lt_iff_toNat_lt, gt_iff_lt, UInt64.lt_iff_toNat_lt, total_sub_off hdata hoff,
    UInt32.toNat_toUInt64, Present, ← lenOf]
  change lenOf _ < 16 ∨ (data.drop s.off.toNat).length < lenOf _ ↔ _
  omega

theorem nlmsgAlign_lenOf {rest : Bytes} (hlen : lenOf rest + 3 < 2 ^ 32) :
    (nlmsgAlign (leWord32 rest 0)).toUInt64.toNat = align4 (lenOf rest) := by
  rw [UInt32.toNat_toUInt64]
  exact nlmsgAlign_toNat hlen

/-- The check on the padding ends the walk at a message whose padding leaves the buffer. -/
theorem stops_iff (hdata : data.length + 3 < 2 ^ 32) (hoff : s.off.toNat ≤ data.length)
    (hp : Present (data.drop s.off.toNat)) :
    (nlmsgAlign (leWord32 (data.drop s.off.toNat) 0)).toUInt64 = 0
        ∨ (nlmsgAlign (leWord32 (data.drop s.off.toNat) 0)).toUInt64 > .ofNat data.length - s.off
      ↔ (data.drop s.off.toNat).length < align4 (lenOf (data.drop s.off.toNat)) := by
  obtain ⟨hmin, hfits⟩ := hp
  have hlen : (data.drop s.off.toNat).length = data.length - s.off.toNat := List.length_drop
  have hge := le_align4 (lenOf (data.drop s.off.toNat))
  rw [← UInt64.toNat_inj, gt_iff_lt, UInt64.lt_iff_toNat_lt, total_sub_off hdata hoff,
    nlmsgAlign_lenOf (by omega)]
  change align4 _ = 0 ∨ (data.drop s.off.toNat).length < _ ↔ _
  omega

/-- The event of a message, from its data in the buffer. -/
theorem eventAt_message {p : Nat} (hp : Present (data.drop p)) :
    eventAt data (p + 16) (leWord32 (data.drop p) 0 - 16).toUInt64
      = pure (eventOf (messageAt (data.drop p)).data) := by
  obtain ⟨hmin, hfits⟩ := hp
  rw [List.length_drop] at hfits
  have hlt : lenOf (data.drop p) < 2 ^ 32 := (leWord32 (data.drop p) 0).toNat_lt
  have hdlen : (leWord32 (data.drop p) 0 - 16).toUInt64 = .ofNat (lenOf (data.drop p) - 16) := by
    have hword : (16 : UInt32) ≤ leWord32 (data.drop p) 0 := UInt32.le_iff_toNat_le.mpr hmin
    have hofNat := UInt64.toNat_ofNat_of_lt' (show lenOf (data.drop p) - 16 < 2 ^ 64 by omega)
    apply UInt64.toNat_inj.mp
    rw [UInt32.toNat_toUInt64, UInt32.toNat_sub_of_le _ _ hword, hofNat]
    rfl
  have hin : p + 16 + (lenOf (data.drop p) - 16) ≤ data.length := by omega
  have h := eventAt_eq hin (by omega)
  rw [← List.drop_drop, ← hdlen] at h
  exact h

/-- An iteration ends the walk before anything but a message. Before a message it makes the
message's call and goes on behind it, unless its padding leaves the buffer. -/
theorem dispatchStep_spec (hdata : data.length + 3 < 2 ^ 32)
    (hoff : s.off.toNat ≤ data.length) :
    let rest := data.drop s.off.toNat
    let calls := s.calls ++ (eventOf (messageAt rest).data).toList
    (¬Present rest ∧ dispatchStep data (.ofNat data.length) s = pure (.inr s.calls))
      ∨ (Present rest ∧ align4 (lenOf rest) ≤ rest.length
        ∧ ∃ s', dispatchStep data (.ofNat data.length) s = pure (.inl s')
          ∧ s'.off.toNat = s.off.toNat + align4 (lenOf rest) ∧ s'.calls = calls)
      ∨ (Present rest ∧ rest.length < align4 (lenOf rest)
        ∧ dispatchStep data (.ofNat data.length) s = pure (.inr calls)) := by
  intro rest calls
  have hleft := total_sub_off hdata hoff
  have hlen : rest.length = data.length - s.off.toNat := List.length_drop
  unfold dispatchStep
  by_cases h16 : UInt64.ofNat data.length - s.off ≥ 16
  case neg =>
    refine Or.inl ⟨fun ⟨hmin, hfits⟩ => h16 ?_, if_neg h16⟩
    rw [ge_iff_le, UInt64.le_iff_toNat_le, hleft]
    exact hmin.trans hfits
  have hroom : 16 ≤ rest.length := by
    rw [ge_iff_le, UInt64.le_iff_toNat_le, hleft] at h16
    exact h16
  have hread : readLe32 data s.off.toNat = pure (leWord32 rest 0) := by
    rw [readLe32_eq s.off.toNat rfl (by omega), leWord32_drop]
    rfl
  have hrefuses := refuses_iff hdata hoff
  rw [if_pos h16, hread, pure_bind]
  by_cases hp : Present rest
  case neg => exact Or.inl ⟨hp, if_pos (hrefuses.mpr hp)⟩
  have hstops := stops_iff hdata hoff hp
  rw [if_neg (mt hrefuses.mp (not_not.mpr hp)), eventAt_message hp, pure_bind]
  by_cases hlast : rest.length < align4 (lenOf rest)
  · exact Or.inr (Or.inr ⟨hp, hlast, if_pos (hstops.mpr hlast)⟩)
  · refine Or.inr (Or.inl ⟨hp, Nat.le_of_not_lt hlast, _, if_neg (mt hstops.mp hlast), ?_, rfl⟩)
    rw [UInt64.toNat_add, nlmsgAlign_lenOf (by have := hp.2; omega)]
    exact Nat.mod_eq_of_lt (by omega)

/-- The offset never passes the end of the buffer, so `total - off` does not wrap. -/
theorem off_le_total (hdata : data.length + 3 < 2 ^ 32)
    (h : ReflTransGen (Next (dispatchStep data (.ofNat data.length))) ⟨0, []⟩ s) :
    s.off.toNat ≤ data.length := by
  refine reach_invariant (fun s => s.off.toNat ≤ data.length) (Nat.zero_le _) ?_ h
  intro a b ha hnext
  unfold Next at hnext
  rcases dispatchStep_spec hdata ha with ⟨-, hstep⟩ | ⟨-, halign, s', hstep, hoff, -⟩
    | ⟨-, -, hstep⟩
  · rw [hstep] at hnext
    cases returns_pure.mp hnext
  · rw [hstep] at hnext
    obtain rfl := Sum.inl.inj (returns_pure.mp hnext)
    rw [List.length_drop] at halign
    omega
  · rw [hstep] at hnext
    cases returns_pure.mp hnext

/-- The calls are the events of the messages present, in order. -/
theorem dispatchNlMsg_returns (hdata : data.length + 3 < 2 ^ 32) :
    (dispatchNlMsg data).Returns (eventsOf data) := by
  have hfold : ∀ (msgs : List Message) (calls : List Event),
      msgs.foldl (fun calls msg => calls ++ (eventOf msg.data).toList) calls
        = calls ++ msgs.filterMap fun msg => eventOf msg.data := by
    intro msgs
    induction msgs with
    | nil => simp
    | cons msg msgs ih =>
        intro calls
        rw [List.foldl_cons, ih, List.append_assoc, List.filterMap_cons]
        cases eventOf msg.data <;> rfl
  rw [eventsOf, ← List.nil_append (List.filterMap _ _), ← hfold]
  refine messages.loop_frames_last
    (fun s rest calls => s.off.toNat ≤ data.length ∧ rest = data.drop s.off.toNat
      ∧ s.calls = calls) _ ?_ ?_ ⟨Nat.zero_le _, rfl, rfl⟩
  · rintro s _ _ ⟨hoff, rfl, rfl⟩ hnext
    have hp : ¬Present (data.drop s.off.toNat) := fun hp => by
      rw [messages, Framing.headed_next_of hp] at hnext
      cases hnext
    rcases dispatchStep_spec hdata hoff with ⟨-, hstep⟩ | ⟨hp', -⟩ | ⟨hp', -⟩
    · rw [hstep]
      exact returns_pure.mpr rfl
    · exact absurd hp' hp
    · exact absurd hp' hp
  · rintro s _ _ msg r ⟨hoff, rfl, rfl⟩ hnext
    obtain ⟨hp, rfl, rfl⟩ := Framing.headed_next_iff.mp hnext
    rcases dispatchStep_spec hdata hoff with ⟨hp', -⟩ | ⟨-, halign, s', hstep, hoff', hcalls⟩
      | ⟨-, hlast, hstep⟩
    · exact absurd hp hp'
    · refine Or.inl ⟨s', by rw [Next, hstep]; exact returns_pure.mpr rfl, ?_, ?_, hcalls⟩
      · rw [List.length_drop] at halign
        omega
      · rw [afterMessage, List.drop_drop, hoff']
    · refine Or.inr ⟨?_, by rw [hstep]; exact returns_pure.mpr rfl⟩
      rw [afterMessage, List.drop_of_length_le (Nat.le_of_lt hlast)]
      exact Framing.headed_next_none (by decide)

end C

/-! ## Agreement of the ports -/

theorem eventsOf_eq_nil_iff {data : Bytes} :
    eventsOf data = [] ↔ ∀ r, Walk data r → Present r → eventOf (messageAt r).data = none := by
  have hcuts : ReflTransGen messages.Cuts data = Walk data := by
    unfold Walk
    congr
    exact funext fun _ => funext fun _ => propext Framing.headed_cuts_iff
  rw [eventsOf, List.filterMap_eq_nil_iff]
  constructor
  · intro h r hr hp
    refine h _ (messages.mem_frames_iff.mpr ⟨r, _, ?_, Framing.headed_next_of hp⟩)
    rw [hcuts]
    exact hr
  · intro h msg hmsg
    obtain ⟨r, t, hr, hnext⟩ := messages.mem_frames_iff.mp hmsg
    obtain ⟨hp, rfl, -⟩ := Framing.headed_next_iff.mp hnext
    rw [hcuts] at hr
    exact h r hr hp

/-- The ports make the same calls exactly when the buffer splits into messages, or none of the
messages the walk comes to carries an event. -/
theorem dispatchNlMsg_agree_iff (data : Bytes) (hdata : data.length + 3 < 2 ^ 32) :
    (∃ calls, (C.dispatchNlMsg data).Returns calls ∧ (Go.dispatchNlMsg data).Returns calls)
      ↔ Splits data ∨ ∀ r, Walk data r → Present r → eventOf (messageAt r).data = none := by
  have hc := C.dispatchNlMsg_returns hdata
  have hgo := Go.dispatchNlMsg_returns data
  rw [← eventsOf_eq_nil_iff]
  by_cases hs : Splits data
  · rw [parseNetlinkMessage_of_splits hs] at hgo
    exact iff_of_true ⟨_, hc, hgo⟩ (Or.inl hs)
  · rw [parseNetlinkMessage_of_not_splits hs] at hgo
    constructor
    · rintro ⟨calls, hc', hgo'⟩
      exact Or.inr ((hc.unique hc').trans (hgo'.unique hgo))
    · rintro (hs' | hnil)
      · exact absurd hs' hs
      · rw [hnil] at hc
        exact ⟨[], hc, hgo⟩

/-- An exec event of PID 42, alone in its buffer. -/
def execMessage : Bytes :=
  [60, 0, 0, 0, 3, 0, 0, 0, 0, 0, 0, 0, 0, 0, 0, 0]
    ++ ([1, 0, 0, 0, 1, 0, 0, 0] ++ List.replicate 12 0
      ++ ([2, 0, 0, 0] ++ List.replicate 12 0 ++ [42, 0, 0, 0, 42, 0, 0, 0]))

theorem execMessage_agrees :
    ∃ calls, (C.dispatchNlMsg execMessage).Returns calls
      ∧ (Go.dispatchNlMsg execMessage).Returns calls := by
  refine (dispatchNlMsg_agree_iff execMessage (by decide)).mpr (Or.inl fun r hr hlen => ?_)
  rcases walk_single (by decide) hr with rfl | rfl
  · decide
  · exact absurd hlen (by decide)

/-- The same message before a header of length zero. -/
def badTail : Bytes := execMessage ++ List.replicate 16 0

/-- The C port hands the event over, the Go port nothing. -/
theorem badTail_disagrees :
    (C.dispatchNlMsg badTail).Returns [.exec [42, 0, 0, 0, 42, 0, 0, 0] 0]
      ∧ (Go.dispatchNlMsg badTail).Returns [] := by
  have hp : Present badTail := by decide
  have hbad : ¬Present (afterMessage badTail) := by decide
  have hlen : badTail.length + 3 < 2 ^ 32 := by decide
  have hc := C.dispatchNlMsg_returns hlen
  have hgo := Go.dispatchNlMsg_returns badTail
  rw [eventsOf, messages, Framing.headed_frames_of hp, Framing.headed_frames_none hbad] at hc
  rw [parseNetlinkMessage_of_not_splits fun hs => ?_] at hgo
  · exact ⟨hc, hgo⟩
  · exact absurd (hs _ (.single ⟨hp, rfl⟩) (by decide)) (by decide)

/-! ## Batches of messages -/

/-- What a message carries: an event of the proc connector, or anything else. -/
inductive Content where
  | event (cn : {b : Bytes // b.length = 12}) (what cpu : UInt32) (tsNs : UInt64) (data : Bytes)
  | other (d : Bytes)
      (foreign : ¬(36 ≤ d.length ∧ leWord32 d 0 = cnIdxProc ∧ leWord32 d 4 = cnValProc))

namespace Content

def bytes : Content → Bytes
  | event cn what cpu tsNs data =>
      le32Bytes cnIdxProc ++ (le32Bytes cnValProc ++ (cn.1 ++ (le32Bytes what
        ++ (le32Bytes cpu ++ (le64Bytes tsNs ++ data)))))
  | other d _ => d

/-- The call due for it. -/
def call : Content → Option Event
  | event _ what _ tsNs data => Event.ofWhat what data tsNs
  | other _ _ => none

theorem eventOf_bytes (c : Content) : eventOf c.bytes = c.call := by
  cases c with
  | other d foreign => exact if_neg foreign
  | event cn what cpu tsNs data =>
      have hall : At (event cn what cpu tsNs data).bytes 0 (event cn what cpu tsNs data).bytes :=
        ⟨by simp, by simp⟩
      obtain ⟨hidx, hrest⟩ := At.append_iff.mp hall
      obtain ⟨hval, hrest⟩ := At.append_iff.mp hrest
      obtain ⟨-, hrest⟩ := At.append_iff.mp hrest
      obtain ⟨hwhat, hrest⟩ := At.append_iff.mp hrest
      obtain ⟨-, hrest⟩ := At.append_iff.mp hrest
      obtain ⟨hts, hdata⟩ := At.append_iff.mp hrest
      simp only [le32Bytes_length, le64Bytes_length, cn.2, Nat.zero_add, Nat.reduceAdd] at *
      have hdrop := hdata.drop_eq (by simp [bytes, cn.2]; omega)
      have hevent : 36 ≤ (event cn what cpu tsNs data).bytes.length
          ∧ leWord32 (event cn what cpu tsNs data).bytes 0 = cnIdxProc
          ∧ leWord32 (event cn what cpu tsNs data).bytes 4 = cnValProc :=
        ⟨(Nat.le_add_right 36 _).trans hdata.le, hidx.leWord32, hval.leWord32⟩
      rw [eventOf, if_pos hevent, hwhat.leWord32, hts.leWord64, hdrop, call]

end Content

/-- A message of a batch. -/
structure BatchMessage where
  packet : Packet
  content : Content
  carries : packet.data = content.bytes

def batchBytes (ms : List BatchMessage) : Bytes := (ms.map fun m => m.packet.bytes).flatten

theorem eventsOf_batchBytes (ms : List BatchMessage) :
    eventsOf (batchBytes ms) = ms.filterMap fun m => m.content.call := by
  have h := Packet.frames_bytes (ms.map BatchMessage.packet)
  rw [List.map_map, List.map_map] at h
  rw [eventsOf, batchBytes, show (fun m : BatchMessage => m.packet.bytes)
    = Packet.bytes ∘ BatchMessage.packet from rfl, h, List.filterMap_map]
  congr
  funext m
  change eventOf m.packet.data = _
  rw [m.carries, m.content.eventOf_bytes]

/-- From a batch of messages the C walk makes one call for each exec or exit event, in order,
and no other. It finishes, reads inside the buffer, and its offset never passes the end. -/
theorem C.dispatchNlMsg_batch (ms : List BatchMessage) (hms : (batchBytes ms).length < 2 ^ 16) :
    (C.dispatchNlMsg (batchBytes ms)).Returns (ms.filterMap fun m => m.content.call)
      ∧ ¬(C.dispatchNlMsg (batchBytes ms)).Faults
      ∧ ∀ s, ReflTransGen (Next (C.dispatchStep (batchBytes ms)
          (.ofNat (batchBytes ms).length))) ⟨0, []⟩ s →
        s.off.toNat ≤ (batchBytes ms).length := by
  have hdata : (batchBytes ms).length + 3 < 2 ^ 32 := by omega
  have hret := C.dispatchNlMsg_returns hdata
  rw [eventsOf_batchBytes] at hret
  exact ⟨hret, hret.not_faults, fun s hs => C.off_le_total hdata hs⟩

/-- An exec event of PID 7 at time 5. -/
def execContent : Content :=
  .event ⟨[0, 0, 0, 0, 0, 0, 0, 0, 0, 0, 0, 0], rfl⟩ procEventExec 0 5 [7, 0, 0, 0, 7, 0, 0, 0]

/-- A batch of that event and a message of another kind. -/
def twoMessages : List BatchMessage :=
  [⟨⟨3, 0, 0, 0, execContent.bytes, [], rfl, of_decide_eq_true rfl⟩, execContent, rfl⟩,
    ⟨⟨2, 0, 0, 0, [1, 2, 3], [0], rfl, of_decide_eq_true rfl⟩,
      .other [1, 2, 3] (of_decide_eq_true rfl), rfl⟩]

theorem twoMessages_delivered :
    (C.dispatchNlMsg (batchBytes twoMessages)).Returns [.exec [7, 0, 0, 0, 7, 0, 0, 0] 5] :=
  (C.dispatchNlMsg_batch twoMessages (by decide)).1

end Tracep.Exectrace
