import Tracep.Nettrace.Connections

/-!
# What the filters let pass

`handle_destroy` asks again whether the process of the connection is
watched, and it may be gone by then. So a DELETE closes an open connection
without a word, and the CLOSED lines are all there exactly when every process
is still watched when its connection is taken out (`closesShown_iff`).

With `-O` the handlers hide what is inbound, and no more. So the lines are
all of outbound connections exactly when the direction of each connection
that is admitted is known, and no UPDATE is shown of a connection that is
not in the table (`onlyOutbound_iff`).
-/

namespace Tracep.Nettrace

open Exec Asking Machine History

variable {ε π τ δ : Type} {P : Port ε π τ δ} {opts : Settings} {env : Env} {db db' : δ}
  {now later : Nat} {key : Bytes} {w : Who} {x : Step δ ε (Handled π τ)}
  {steps h rest : List (Step δ ε (Handled π τ))} {line : Line τ} {msgs : List ε} {orig : τ}

/-! ## CLOSED lines -/

section Closed

variable (P : Port ε π τ δ) (opts : Settings) (env : Env)

/-- Each DELETE for a connection that was shown to open, and has not been shown to close, prints
one line, which is a CLOSED line for it. -/
def ClosesShown (steps : List (Step δ ε (Handled π τ))) : Prop :=
  ∀ h x rest, steps = h ++ x :: rest → ∀ key, Deletes P key x →
    Since (fun line => ∃ w, Opening P key w line) (Closing P key) (output h) →
      ∃ line, x.out.lines = [line] ∧ Closing P key line

/-- The process of each connection that is taken out is watched, as far as can be told when the
DELETE is handled, if only some processes are. -/
def StillWatched (steps : List (Step δ ε (Handled π τ))) : Prop :=
  ∀ x ∈ steps, ∀ key e, Deletes P key x → P.conns.get x.before key = some e →
    opts.watchPIDs = [] ∨ ∃ later, Gives (P.isWatched env opts.watchPIDs e.pid) x.start true later

end Closed

theorem not_unwatched_iff {pid : Int32} : (∃ later, Gives (unwatched P opts env pid) now false later)
    ↔ opts.watchPIDs = [] ∨ ∃ later, Gives (P.isWatched env opts.watchPIDs pid) now true later := by
  unfold unwatched
  by_cases hall : opts.watchPIDs = []
  · rw [if_pos hall, iff_true_right (Or.inl hall)]
    exact ⟨now, gives_pure.mpr ⟨rfl, rfl⟩⟩
  · rw [if_neg hall, or_iff_right hall]
    constructor
    · rintro ⟨later, h⟩
      obtain ⟨watched, mid, hwatched, hlast⟩ := gives_bind.mp h
      cases watched with
      | true => exact ⟨mid, hwatched⟩
      | false => exact absurd (gives_pure.mp hlast).1 Bool.false_ne_true
    · rintro ⟨later, h⟩
      exact ⟨later, gives_bind.mpr ⟨true, later, h, gives_pure.mpr ⟨rfl, rfl⟩⟩⟩

theorem showClose_of_delete {o : Options} {t flags : UInt16}
    (h : handler o t flags = some .delete) : o.showClose = false := by
  unfold handler at h
  simp only [] at h
  split at h
  · cases h
  · split at h
    · cases h
    · split at h
      · cases h
      · next hnew _ hclose =>
          split at h
          · next hdel => exact Bool.eq_false_of_not_eq_true fun hshow => hclose ⟨hdel, hshow⟩
          · cases h

/-- With `-t`, a DELETE finds no entry, or that of a process that is no longer watched, or prints
the line for it. -/
theorem delete_cases (hshow : opts.showClose = true)
    (hx : Gives (step P opts env x.before x.event) x.start (x.after, x.out) x.stop)
    (hdel : Deletes P key x) :
    (P.conns.get x.before key = none ∧ x.out.lines = [])
      ∨ ∃ e, P.conns.get x.before key = some e
        ∧ ((x.out.lines = [] ∧ ∃ later, Gives (unwatched P opts env e.pid) x.start true later)
          ∨ (∃ later, Gives (unwatched P opts env e.pid) x.start false later)
            ∧ ∃ line, x.out.lines = [line] ∧ Closing P key line) := by
  obtain ⟨hinspect, heffect⟩ := step_effect hx
  obtain ⟨c, orig, hc, hv, rfl⟩ := hdel
  have hdestroy : Called x.out.visit .destroy orig := by
    rcases hc with rfl | rfl
    · exact hv
    · obtain ⟨-, -, t, flags, hhandler⟩ := P.dispatched hinspect hv.call
      exact Bool.noConfusion (hshow.symm.trans (showClose_of_delete hhandler))
  generalize x.after = after at heffect
  generalize x.out.lines = lines at heffect ⊢
  cases heffect with
  | idle hnone => exact absurd (hdestroy.call.symm.trans hnone) (Option.some_ne_none _)
  | refused hnew _ => cases (hdestroy.unique hnew).1
  | opened hnew _ _ => cases (hdestroy.unique hnew).1
  | hidden hupdate _ => cases (hdestroy.unique hupdate).1
  | updated hupdate _ _ _ => cases (hdestroy.unique hupdate).1
  | predates hv' hent =>
      obtain ⟨-, rfl⟩ := hdestroy.unique hv'
      exact Or.inl ⟨hent, rfl⟩
  | unwatched hv' hent hhide =>
      obtain ⟨-, rfl⟩ := hdestroy.unique hv'
      exact Or.inr ⟨_, hent, Or.inl ⟨rfl, hhide⟩⟩
  | @closed orig' e line hv' hent hpass his =>
      obtain ⟨-, rfl⟩ := hdestroy.unique hv'
      exact Or.inr ⟨e, hent, Or.inr ⟨hpass, line, rfl, his.event, congrArg P.key his.orig⟩⟩
  | dropped hv' => cases (hdestroy.unique hv').1

/-- While every process is still watched, what is shown as open is in the table. -/
theorem holds_of_open (hshow : opts.showClose = true) (hruns : Runs P opts env h (db, now))
    (hstill : StillWatched P opts env h)
    (hopen : Since (fun line => ∃ w, Opening P key w line) (Closing P key) (output h)) :
    (P.conns.get db key).isSome := by
  induction hruns using trace_induction with
  | nil => exact absurd hopen not_since_nil
  | snoc h x _ hx ih =>
      have hbefore (hin : Since (fun line => ∃ w, Opening P key w line) (Closing P key) (output h)) :
          (P.conns.get x.before key).isSome :=
        ih (fun y hy => hstill y (List.mem_append_left [x] hy)) hin
      rw [output_snoc, since_append] at hopen
      rw [isSome_iff_who] at hbefore ⊢
      rcases change_cases (step_effect hx).2 with ⟨hsame, -, -, hlines⟩
        | ⟨orig, e, line, -, -, -, hput, hlines, his⟩ | ⟨orig, hdel, -, -, hdelete, hlines⟩
      · rcases hopen with ⟨h₁, line, h₂, heq, ⟨w, hline, -⟩, -⟩ | ⟨hin, -⟩
        · have hmem : line ∈ x.out.lines := heq ▸ List.mem_append_right h₁ List.mem_cons_self
          exact Event.noConfusion ((hlines line hmem).symm.trans hline)
        · rw [hsame]
          exact hbefore hin
      · rw [hput, P.conns.get_put]
        split
        · exact ⟨_, rfl⟩
        · next hne =>
            rcases hopen with hin | ⟨hin, -⟩
            · rw [hlines] at hin
              obtain ⟨w, -, hkey, -⟩ := since_singleton.mp hin
              exact absurd (hkey.symm.trans (congrArg P.key his.orig)) hne
            · exact hbefore hin
      · have hin : Since (fun line => ∃ w, Opening P key w line) (Closing P key) (output h)
            ∧ ∀ line ∈ x.out.lines, ¬Closing P key line := by
          rcases hopen with ⟨h₁, line, h₂, heq, ⟨w, hline, -⟩, -⟩ | hin
          · have hmem : line ∈ x.out.lines := heq ▸ List.mem_append_right h₁ List.mem_cons_self
            obtain ⟨-, e, -, his⟩ := hlines line hmem
            exact Event.noConfusion (his.event.symm.trans hline)
          · exact hin
        rw [hdelete, P.conns.get_delete]
        split
        · next heq =>
            subst heq
            obtain ⟨w, hw⟩ := hbefore hin.1
            obtain ⟨e, hent, -⟩ := Option.map_eq_some_iff.mp hw
            have hwatched := not_unwatched_iff.mpr
              (hstill x (List.mem_append_right h List.mem_cons_self) _ e hdel hent)
            rcases delete_cases hshow hx hdel with ⟨hnone, -⟩ | ⟨e', hent', hclose⟩
            · exact absurd (hent.symm.trans hnone) (Option.some_ne_none e)
            · obtain rfl := Option.some.inj (hent.symm.trans hent')
              rcases hclose with ⟨-, later, hhide⟩ | ⟨-, line, hline, hclosing⟩
              · obtain ⟨later', hshown⟩ := hwatched
                exact absurd (hshown.unique hhide).1 Bool.false_ne_true
              · rw [hline] at hin
                exact absurd hclosing (hin.2 line List.mem_cons_self)
        · exact hbefore hin.1

theorem closesShown_iff (hshow : opts.showClose = true)
    (hrun : Gives (run P opts env msgs) 0 (db, steps) later) :
    ClosesShown P steps ↔ StillWatched P opts env steps := by
  constructor
  · intro hcloses x hmem key e hdel hent
    obtain ⟨h, rest, rfl⟩ := List.append_of_mem hmem
    obtain ⟨hruns, hx⟩ := run_next hrun
    have hwho : (P.conns.get x.before key).map ConnEntry.who = some e.who := by
      rw [hent, Option.map_some]
    obtain ⟨h₁, line, h₂, hout, hopening, hnone⟩ := opening_since hruns hwho
    obtain ⟨closed, hline, -⟩ := hcloses h x rest rfl key hdel
      ⟨h₁, line, h₂, hout, ⟨e.who, hopening⟩, hnone⟩
    rw [← not_unwatched_iff]
    rcases delete_cases hshow hx hdel with ⟨hnone, -⟩ | ⟨e', hent', ⟨hempty, -⟩ | ⟨hshown, -⟩⟩
    · exact absurd (hent.symm.trans hnone) (Option.some_ne_none e)
    · exact absurd (hline.symm.trans hempty) (List.cons_ne_nil closed [])
    · obtain rfl := Option.some.inj (hent.symm.trans hent')
      exact hshown
  · rintro hstill h x rest rfl key hdel hopen
    obtain ⟨hruns, hx⟩ := run_next hrun
    have hbefore : StillWatched P opts env h :=
      fun y hy => hstill y (List.mem_append_left (x :: rest) hy)
    obtain ⟨e, hent⟩ :=
      Option.isSome_iff_exists.mp (holds_of_open hshow hruns hbefore hopen)
    have hwatched := not_unwatched_iff.mpr
      (hstill x (List.mem_append_right h List.mem_cons_self) key e hdel hent)
    rcases delete_cases hshow hx hdel with ⟨hnone, -⟩ | ⟨e', hent', ⟨-, later, hhide⟩ | ⟨-, hline⟩⟩
    · exact absurd (hent.symm.trans hnone) (Option.some_ne_none e)
    · obtain rfl := Option.some.inj (hent.symm.trans hent')
      obtain ⟨later', hshown⟩ := hwatched
      exact absurd (hshown.unique hhide).1 Bool.false_ne_true
    · exact hline

/-- What is handled at a step and printed. -/
structure Report where
  call : Option Call
  key : Option Bytes
  lines : List (Event × Bytes)
deriving DecidableEq

def report (P : Port ε π τ δ) (x : Step δ ε (Handled π τ)) : Report :=
  ⟨x.out.visit.call, x.out.visit.orig.map P.key,
    x.out.lines.map fun line => (line.event, P.key line.orig)⟩

/-- All the processes under 100. -/
def under100 : Settings := ⟨⟨false, false, true, true⟩, [100], false, false, false⟩

/-- The texts of the connection's ends. -/
def sampleKey : Bytes := Go.ConnTuple.key ⟨some [10, 0, 0, 1], some [10, 0, 0, 2], 8080, 80, 6⟩

theorem not_closesShown (hreport : steps.map (report P)
    = [⟨some .new, some key, [(.opened, key)]⟩, ⟨some .destroy, some key, []⟩]) :
    ¬ClosesShown P steps := by
  intro hcloses
  obtain ⟨x₁, rest, rfl, hfirst, hrest⟩ := List.map_eq_cons_iff.mp hreport
  obtain ⟨x₂, rest, rfl, hsecond, hnil⟩ := List.map_eq_cons_iff.mp hrest
  obtain rfl := List.map_eq_nil_iff.mp hnil
  obtain ⟨-, -, hlines⟩ := Report.mk.inj hfirst
  obtain ⟨hcall, hkey, hnone⟩ := Report.mk.inj hsecond
  obtain ⟨line, hline, htail⟩ := List.map_eq_singleton_iff.mp hlines
  obtain ⟨hevent, hlinekey⟩ := Prod.mk.inj htail
  obtain ⟨orig, horig, hkey⟩ := Option.map_eq_some_iff.mp hkey
  have hopen : Since (fun line => ∃ w, Opening P key w line) (Closing P key) (output [x₁]) := by
    rw [output, List.flatMap_singleton, hline]
    exact since_singleton.mpr ⟨line.who, hevent, hlinekey, rfl⟩
  obtain ⟨closed, hclosed, -⟩ := hcloses [x₁] x₂ [] rfl key
    ⟨.destroy, orig, Or.inl rfl, ⟨hcall, horig⟩, hkey⟩ hopen
  rw [List.map_eq_nil_iff.mp hnone] at hclosed
  cases hclosed

section Outbound

variable (P : Port ε π τ δ) (opts : Settings) (env : Env)

/-- Every line is about an outbound connection. -/
def OnlyOutbound (steps : List (Step δ ε (Handled π τ))) : Prop :=
  ∀ line ∈ output steps, line.dir = .outbound

/-- It is known in which direction each admitted connection goes, and unless only some processes
are watched each UPDATE handled is of a connection in the table. -/
def KnownDirections (steps : List (Step δ ε (Handled π τ))) : Prop :=
  ∀ x ∈ steps, (∀ orig w, Called x.out.visit .new orig → Admits P opts env x.start orig w →
      w.2.2 ≠ .unknown)
    ∧ ∀ orig, Called x.out.visit .update orig → opts.watchPIDs = [] →
      (P.conns.get x.before (P.key orig)).isSome

end Outbound

theorem unwatched_zero (hsome : opts.watchPIDs ≠ []) :
    Gives (unwatched P opts env 0) now true now := by
  rw [unwatched, if_neg hsome, P.isWatched_zero, pure_bind]
  exact gives_pure.mpr ⟨rfl, rfl⟩

theorem whoIs_of_none (hnone : P.conns.get db key = none) : whoIs P db key = (0, [], .unknown) := by
  rw [whoIs, hnone]
  rfl

theorem whoIs_of_some {e : ConnEntry τ} (hent : P.conns.get db key = some e) :
    whoIs P db key = e.who := by
  rw [whoIs, hent]
  rfl

/-- With `-O`, what is admitted with a direction that is known is outbound. -/
theorem Admits.outbound (hout : opts.outboundOnly = true) (h : Admits P opts env now orig w)
    (hknown : w.2.2 ≠ .unknown) : w.2.2 = .outbound := by
  obtain ⟨mid, -, -, hwanted⟩ := h
  rw [unwanted, hout, Bool.true_and, decide_eq_false_iff_not] at hwanted
  cases hdir : w.2.2 with
  | unknown => exact absurd hdir hknown
  | outbound => rfl
  | inbound => exact absurd hdir hwanted

/-- While the directions are known, all entries are of outbound connections. -/
theorem entries_outbound (hout : opts.outboundOnly = true) (hruns : Runs P opts env h (db, now))
    (hknown : KnownDirections P opts env h)
    (hwho : (P.conns.get db key).map ConnEntry.who = some w) : w.2.2 = .outbound := by
  obtain ⟨h₁, x, h₂, rfl, ⟨orig, hnew, -, hadmits⟩, -⟩ := (who_iff hruns).mp hwho
  have hmem : x ∈ h₁ ++ x :: h₂ := List.mem_append_right h₁ List.mem_cons_self
  exact hadmits.outbound hout ((hknown x hmem).1 orig w hnew hadmits)

theorem onlyOutbound_iff (hout : opts.outboundOnly = true)
    (hrun : Gives (run P opts env msgs) 0 (db, steps) later) :
    OnlyOutbound steps ↔ KnownDirections P opts env steps := by
  constructor
  · intro honly x hmem
    obtain ⟨h, rest, rfl⟩ := List.append_of_mem hmem
    obtain ⟨hruns, hx⟩ := run_next hrun
    have hlines : ∀ line ∈ x.out.lines, line.dir = .outbound :=
      fun line hline => honly line (List.mem_flatMap.mpr ⟨x, hmem, hline⟩)
    have heffect := (step_effect hx).2
    generalize x.after = after at heffect
    generalize x.out.lines = lines at heffect hlines
    constructor
    · intro orig w hnew hadmits hunknown
      cases heffect with
      | idle hnone => exact absurd (hnew.call.symm.trans hnone) (Option.some_ne_none _)
      | refused hnew' hnone =>
          obtain ⟨-, rfl⟩ := hnew.unique hnew'
          exact hnone w hadmits
      | @opened orig' e line hnew' hadmits' his =>
          obtain ⟨-, rfl⟩ := hnew.unique hnew'
          have hdir : line.dir = w.2.2 := by
            rw [hadmits.unique hadmits', ← his.who]
            rfl
          have houtbound := hlines line List.mem_cons_self
          exact Direction.noConfusion (houtbound.symm.trans (hdir.trans hunknown))
      | hidden hv _ => cases (hnew.unique hv).1
      | updated hv _ _ _ => cases (hnew.unique hv).1
      | predates hv _ => cases (hnew.unique hv).1
      | unwatched hv _ _ => cases (hnew.unique hv).1
      | closed hv _ _ _ => cases (hnew.unique hv).1
      | dropped hv => cases (hnew.unique hv).1
    · intro orig hupdate hall
      rw [Option.isSome_iff_ne_none]
      intro hnone
      have hwho := whoIs_of_none hnone
      cases heffect with
      | idle hidle => exact absurd (hupdate.call.symm.trans hidle) (Option.some_ne_none _)
      | hidden hv hnot =>
          obtain ⟨-, rfl⟩ := hupdate.unique hv
          rw [hwho] at hnot
          exact hnot ⟨not_unwatched_iff.mpr (Or.inl hall), Bool.and_false _⟩
      | @updated orig' line db' hv hpass his _ =>
          obtain ⟨-, rfl⟩ := hupdate.unique hv
          have hdir : line.dir = .unknown := by
            change line.who.2.2 = .unknown
            rw [his.who, hwho]
          exact Direction.noConfusion (hdir.symm.trans (hlines line List.mem_cons_self))
      | refused hv _ => cases (hupdate.unique hv).1
      | opened hv _ _ => cases (hupdate.unique hv).1
      | predates hv _ => cases (hupdate.unique hv).1
      | unwatched hv _ _ => cases (hupdate.unique hv).1
      | closed hv _ _ _ => cases (hupdate.unique hv).1
      | dropped hv => cases (hupdate.unique hv).1
  · intro hknown line hprinted
    obtain ⟨x, hmem, hline⟩ := List.mem_flatMap.mp hprinted
    obtain ⟨h, rest, rfl⟩ := List.append_of_mem hmem
    obtain ⟨hruns, hx⟩ := run_next hrun
    have hbefore : KnownDirections P opts env h :=
      fun y hy => hknown y (List.mem_append_left (x :: rest) hy)
    have hentry {key : Bytes} {e : ConnEntry τ} (hent : P.conns.get x.before key = some e) :
        e.dir = .outbound :=
      entries_outbound (w := e.who) hout hruns hbefore (by rw [hent, Option.map_some])
    obtain ⟨hnews, hupdates⟩ := hknown x hmem
    have heffect := (step_effect hx).2
    generalize x.after = after at heffect
    generalize x.out.lines = lines at heffect hline
    change line.who.2.2 = .outbound
    cases heffect with
    | opened hv hadmits his =>
        obtain rfl := List.mem_singleton.mp hline
        rw [his.who]
        exact hadmits.outbound hout (hnews _ _ hv hadmits)
    | @updated orig line' db' hv hpass his _ =>
        obtain rfl := List.mem_singleton.mp hline
        rw [his.who]
        cases hent : P.conns.get x.before (P.key orig) with
        | none =>
            rw [whoIs_of_none hent] at hpass
            by_cases hall : opts.watchPIDs = []
            · have hsome := hupdates orig hv hall
              rw [hent] at hsome
              cases hsome
            · exact absurd (unwatched_zero hall) hpass.not_unwatched
        | some e =>
            rw [whoIs_of_some hent]
            exact hentry hent
    | closed hv hent _ his =>
        obtain rfl := List.mem_singleton.mp hline
        rw [his.who]
        exact hentry hent
    | idle _ => cases hline
    | refused _ _ => cases hline
    | hidden _ _ => cases hline
    | predates _ _ => cases hline
    | unwatched _ _ _ => cases hline
    | dropped _ => cases hline

/-- With `-O`, in every run of either port the lines are all of outbound connections exactly when
the directions of all that is printed are known. -/
theorem run_onlyOutbound_iff (opts : Settings) (env : Env) (hout : opts.outboundOnly = true) :
    (∀ msgs db steps later, Gives (Go.run opts env msgs) 0 (db, steps) later →
        (OnlyOutbound steps ↔ KnownDirections Go.port opts env steps))
      ∧ ∀ msgs db steps later, Gives (C.run opts env msgs) 0 (db, steps) later →
        (OnlyOutbound steps ↔ KnownDirections C.port opts env steps) := by
  constructor
  · intro msgs db steps later hrun
    exact onlyOutbound_iff (P := Go.port) hout hrun
  · intro msgs db steps later hrun
    exact onlyOutbound_iff (P := C.port) hout hrun

/-! ### A connection that is in no table -/

/-- Outbound connections only. -/
def outboundOnes : Settings := ⟨⟨false, false, true, true⟩, [], true, false, false⟩

theorem outbound_of_200 : (∃ db steps later, Gives (Go.run outboundOnes (childOf100 9)
        [Go.sampleNew, Go.sampleUpdate]) 0 (db, steps) later
      ∧ (OnlyOutbound steps ↔ KnownDirections Go.port outboundOnes (childOf100 9) steps))
    ∧ ∃ db steps later, Gives (C.run outboundOnes (childOf100 9) [C.sampleNew, C.sampleUpdate]) 0
        (db, steps) later
      ∧ (OnlyOutbound steps ↔ KnownDirections C.port outboundOnes (childOf100 9) steps) := by
  constructor
  · obtain ⟨⟨db, steps⟩, later, hrun, -⟩ := exists_gives
      (Go.run outboundOnes (childOf100 9) [Go.sampleNew, Go.sampleUpdate])
      (fun r => r.2.length) 2 0 9 (by decide +kernel)
    exact ⟨db, steps, later, hrun,
      (run_onlyOutbound_iff outboundOnes (childOf100 9) rfl).1 _ db steps later hrun⟩
  · obtain ⟨⟨db, steps⟩, later, hrun, -⟩ := exists_gives
      (C.run outboundOnes (childOf100 9) [C.sampleNew, C.sampleUpdate])
      (fun r => r.2.length) 2 0 9 (by decide +kernel)
    exact ⟨db, steps, later, hrun,
      (run_onlyOutbound_iff outboundOnes (childOf100 9) rfl).2 _ db steps later hrun⟩

/-- A connection of unknown direction is printed, and so is an UPDATE of one that is not in the
table. -/
theorem elsewhere_not_onlyOutbound : outboundOnes.outboundOnly = true
    ∧ (∃ db steps later, Gives (Go.run outboundOnes elsewhere [Go.sampleUpdate, Go.sampleNew]) 0
        (db, steps) later ∧ (output steps).map Line.dir = [.unknown, .unknown]
        ∧ ¬OnlyOutbound steps)
    ∧ ∃ db steps later, Gives (C.run outboundOnes elsewhere [C.sampleUpdate, C.sampleNew]) 0
        (db, steps) later ∧ (output steps).map Line.dir = [.unknown, .unknown]
        ∧ ¬OnlyOutbound steps := by
  have hnot {α : Type} {lines : List (Line α)} (hdirs : lines.map Line.dir = [.unknown, .unknown]) :
      ¬∀ line ∈ lines, line.dir = .outbound := by
    intro honly
    obtain ⟨line, rest, rfl, hunknown, -⟩ := List.map_eq_cons_iff.mp hdirs
    exact Direction.noConfusion (hunknown.symm.trans (honly line List.mem_cons_self))
  refine ⟨rfl, ?_, ?_⟩
  · obtain ⟨⟨db, steps⟩, later, hrun, hdirs⟩ := exists_gives
      (Go.run outboundOnes elsewhere [Go.sampleUpdate, Go.sampleNew])
      (fun r => (output r.2).map Line.dir) [.unknown, .unknown] 0 9 (by decide +kernel)
    exact ⟨db, steps, later, hrun, hdirs, hnot hdirs⟩
  · obtain ⟨⟨db, steps⟩, later, hrun, hdirs⟩ := exists_gives
      (C.run outboundOnes elsewhere [C.sampleUpdate, C.sampleNew])
      (fun r => (output r.2).map Line.dir) [.unknown, .unknown] 0 9 (by decide +kernel)
    exact ⟨db, steps, later, hrun, hdirs, hnot hdirs⟩

end Tracep.Nettrace
