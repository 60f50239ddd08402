import Tracep.Nettrace.Effect

/-!
# The connections and the messages before them

The store of connections tells what the messages so far have come to: a key
is in it exactly when a connection with that key was admitted since the last
DELETE for it (`holds_iff`), and its entry is the one of the latest such
message (`who_iff`). Since each entry came with an opening line, a CLOSED
line repeats the opening line of its connection, with no CLOSED line for it
between (`closesOpened`).
-/

namespace Tracep.Nettrace

open Exec Asking Machine History

variable {ε π τ δ : Type}

section Steps

variable (P : Port ε π τ δ) (opts : Settings) (env : Env)

/-- The message is a NEW+CREATE for the key, and the connection is admitted as this one. -/
def OpensAs (key : Bytes) (w : Who) (x : Step δ ε (Handled π τ)) : Prop :=
  ∃ orig, Called x.out.visit .new orig ∧ P.key orig = key ∧ Admits P opts env x.start orig w

/-- The message is a NEW+CREATE for the key that has passed the filters. -/
def Opens (key : Bytes) (x : Step δ ε (Handled π τ)) : Prop := ∃ w, OpensAs P opts env key w x

/-- The message is a DELETE for the key. -/
def Deletes (key : Bytes) (x : Step δ ε (Handled π τ)) : Prop :=
  ∃ c orig, (c = .destroy ∨ c = .delete) ∧ Called x.out.visit c orig ∧ P.key orig = key

/-- The line is the opening line of the connection with this key. -/
def Opening (key : Bytes) (w : Who) (line : Line τ) : Prop :=
  line.event = .opened ∧ P.key line.orig = key ∧ line.who = w

/-- The line is a CLOSED line for the key. -/
def Closing (key : Bytes) (line : Line τ) : Prop := line.event = .closed ∧ P.key line.orig = key

/-- Each CLOSED line has the opening line of its connection before it, with none for the key
between. -/
def ClosesOpened (lines : List (Line τ)) : Prop :=
  ∀ before line after, lines = before ++ line :: after → line.event = .closed →
    Since (Opening P (P.key line.orig) line.who) (Closing P (P.key line.orig)) before

end Steps

/-- What a run prints. -/
def output (steps : List (Step δ ε (Handled π τ))) : List (Line τ) :=
  steps.flatMap fun x => x.out.lines

variable {P : Port ε π τ δ} {opts : Settings} {env : Env} {db : δ} {now later : Nat}
  {key : Bytes} {w : Who} {x : Step δ ε (Handled π τ)} {steps h rest : List (Step δ ε (Handled π τ))}
  {line : Line τ} {msgs : List ε}

theorem output_snoc : output (h ++ [x]) = output h ++ x.out.lines := by
  rw [output, List.flatMap_append, List.flatMap_singleton]
  rfl

theorem isSome_iff_who {ent : Option (ConnEntry τ)} :
    ent.isSome ↔ ∃ w, ent.map ConnEntry.who = some w := by
  rw [← Option.isSome_map (f := ConnEntry.who), Option.isSome_iff_exists]

theorem not_opens_of_called {c : Call} {orig : τ} (hv : Called x.out.visit c orig)
    (hc : c ≠ .new) : ¬Opens P opts env key x := by
  rintro ⟨w, orig', hnew, -⟩
  exact hc (hv.unique hnew).1

theorem not_deletes_of_called {c : Call} {orig : τ} (hv : Called x.out.visit c orig)
    (hc : ¬(c = .destroy ∨ c = .delete)) : ¬Deletes P key x := by
  rintro ⟨c', orig', hc', hdel, -⟩
  exact hc ((hv.unique hdel).1 ▸ hc')

/-! ## One message -/

/-- A message leaves the connections as they are, or opens one, or takes one out. -/
theorem change_cases
    (hx : Effect P opts env x.before x.start x.out.visit x.after x.out.lines) :
    ((∀ key, (P.conns.get x.after key).map ConnEntry.who
          = (P.conns.get x.before key).map ConnEntry.who)
        ∧ (∀ key, ¬Opens P opts env key x) ∧ (∀ key, ¬Deletes P key x)
        ∧ ∀ line ∈ x.out.lines, line.event = .update)
      ∨ (∃ orig e line, OpensAs P opts env (P.key orig) e.who x ∧ (∀ key, ¬Deletes P key x)
        ∧ (∀ key w, OpensAs P opts env key w x → key = P.key orig ∧ w = e.who)
        ∧ x.after = P.conns.put x.before (P.key orig) e ∧ x.out.lines = [line]
        ∧ line.Is orig e.who .opened)
      ∨ ∃ orig, Deletes P (P.key orig) x ∧ (∀ key, ¬Opens P opts env key x)
        ∧ (∀ key, Deletes P key x → key = P.key orig)
        ∧ x.after = P.conns.delete x.before (P.key orig)
        ∧ ∀ line ∈ x.out.lines, x.out.lines = [line]
          ∧ ∃ e, P.conns.get x.before (P.key orig) = some e ∧ line.Is orig e.who .closed := by
  have hremoved {c : Call} {orig : τ} (hc : c = .destroy ∨ c = .delete)
      (hv : Called x.out.visit c orig) : Deletes P (P.key orig) x
        ∧ (∀ key, ¬Opens P opts env key x) ∧ ∀ key, Deletes P key x → key = P.key orig := by
    refine ⟨⟨c, orig, hc, hv, rfl⟩, fun key => not_opens_of_called hv ?_, ?_⟩
    · rintro rfl
      rcases hc with hc | hc <;> cases hc
    · rintro key ⟨c', orig', -, hv', rfl⟩
      rw [(hv.unique hv').2]
  generalize hafter : x.after = after at hx
  generalize hlines : x.out.lines = lines at hx
  cases hx with
  | idle hnone =>
      refine Or.inl ⟨fun _ => rfl, ?_, ?_, List.forall_mem_nil _⟩
      · rintro key ⟨w, orig, hv, -⟩
        exact Option.some_ne_none _ (hv.call.symm.trans hnone)
      · rintro key ⟨c, orig, -, hv, -⟩
        exact Option.some_ne_none _ (hv.call.symm.trans hnone)
  | refused hv hnone =>
      refine Or.inl ⟨fun _ => rfl, ?_, fun key => not_deletes_of_called hv (by decide),
        List.forall_mem_nil _⟩
      rintro key ⟨w, orig', hv', -, hadmits⟩
      rw [← (hv.unique hv').2] at hadmits
      exact hnone w hadmits
  | @opened orig e line hv hadmits his =>
      refine Or.inr (Or.inl ⟨orig, e, line, ⟨orig, hv, rfl, hadmits⟩,
        fun key => not_deletes_of_called hv (by decide), ?_, rfl, rfl, his⟩)
      rintro key w ⟨orig', hv', rfl, hadmits'⟩
      rw [← (hv.unique hv').2] at hadmits' ⊢
      exact ⟨rfl, hadmits'.unique hadmits⟩
  | hidden hv hnot =>
      exact Or.inl ⟨fun _ => rfl, fun key => not_opens_of_called hv (by decide),
        fun key => not_deletes_of_called hv (by decide), List.forall_mem_nil _⟩
  | updated hv hpass his hwho =>
      refine Or.inl ⟨hwho, fun key => not_opens_of_called hv (by decide),
        fun key => not_deletes_of_called hv (by decide), ?_⟩
      intro line hline
      rw [List.mem_singleton.mp hline]
      exact his.event
  | predates hv hent =>
      obtain ⟨hdel, hopens, hkey⟩ := hremoved (Or.inl rfl) hv
      exact Or.inr (Or.inr ⟨_, hdel, hopens, hkey, rfl, List.forall_mem_nil _⟩)
  | unwatched hv hent hhide =>
      obtain ⟨hdel, hopens, hkey⟩ := hremoved (Or.inl rfl) hv
      exact Or.inr (Or.inr ⟨_, hdel, hopens, hkey, rfl, List.forall_mem_nil _⟩)
  | @closed orig e line hv hent hshow his =>
      obtain ⟨hdel, hopens, hkey⟩ := hremoved (Or.inl rfl) hv
      refine Or.inr (Or.inr ⟨orig, hdel, hopens, hkey, rfl, ?_⟩)
      intro line' hline
      obtain rfl := List.mem_singleton.mp hline
      exact ⟨rfl, e, hent, his⟩
  | dropped hv =>
      obtain ⟨hdel, hopens, hkey⟩ := hremoved (Or.inr rfl) hv
      exact Or.inr (Or.inr ⟨_, hdel, hopens, hkey, rfl, List.forall_mem_nil _⟩)

/-- What one message does to the entry of a key. -/
theorem who_after_iff
    (hx : Effect P opts env x.before x.start x.out.visit x.after x.out.lines) :
    (P.conns.get x.after key).map ConnEntry.who = some w ↔ OpensAs P opts env key w x
      ∨ (P.conns.get x.before key).map ConnEntry.who = some w
        ∧ ¬(Opens P opts env key x ∨ Deletes P key x) := by
  rcases change_cases hx with ⟨hwho, hopens, hdel, -⟩ | ⟨orig, e, line, hnew, hdel, huniq, hput, -⟩
    | ⟨orig, hdel, hopens, hkey, hdelete, -⟩
  · rw [hwho, or_iff_right fun h => hopens key ⟨w, h⟩, iff_self_and]
    exact fun _ h => h.elim (hopens key) (hdel key)
  · rw [hput, P.conns.get_put]
    split
    · next heq =>
        subst heq
        rw [or_iff_left fun h => h.2 (Or.inl ⟨e.who, hnew⟩), Option.map_some, Option.some_inj]
        constructor
        · rintro rfl
          exact hnew
        · intro h
          exact (huniq _ _ h).2.symm
    · next hne =>
        rw [or_iff_right fun h => hne (huniq _ _ h).1, iff_self_and]
        rintro - (⟨w', h⟩ | h)
        · exact hne (huniq _ _ h).1
        · exact hdel key h
  · rw [hdelete, P.conns.get_delete, or_iff_right fun h => hopens key ⟨w, h⟩]
    split
    · next heq =>
        subst heq
        exact iff_of_false nofun fun h => h.2 (Or.inr hdel)
    · next hne =>
        rw [iff_self_and]
        exact fun _ h => h.elim (hopens key) fun h => hne (hkey key h)

/-! ## Runs -/

/-- The steps of the tracer. -/
abbrev Runs (P : Port ε π τ δ) (opts : Settings) (env : Env) :
    List (Step δ ε (Handled π τ)) → δ × Nat → Prop :=
  Trace (Next (step P opts env)) (P.conns.empty, 0)

/-- The entry of a key is that of the latest opening, if there was no DELETE since. -/
theorem who_iff (hruns : Runs P opts env h (db, now)) :
    (P.conns.get db key).map ConnEntry.who = some w ↔ Since (OpensAs P opts env key w)
      (fun x => Opens P opts env key x ∨ Deletes P key x) h := by
  induction hruns using trace_induction with
  | nil =>
      rw [P.conns.get_empty]
      exact iff_of_false nofun not_since_nil
  | snoc h x _ hx ih => rw [who_after_iff (step_effect hx).2, ih, since_snoc]

/-- A key is there exactly when it was opened since the last DELETE. -/
theorem holds_iff (hruns : Runs P opts env h (db, now)) :
    (P.conns.get db key).isSome ↔ Since (Opens P opts env key) (Deletes P key) h := by
  induction hruns using trace_induction with
  | nil =>
      rw [P.conns.get_empty]
      exact iff_of_false nofun not_since_nil
  | snoc h x _ hx ih =>
      have hafter (w : Who) : (P.conns.get x.after key).map ConnEntry.who = some w
          ↔ OpensAs P opts env key w x ∨ (P.conns.get x.before key).map ConnEntry.who = some w
            ∧ ¬(Opens P opts env key x ∨ Deletes P key x) := who_after_iff (step_effect hx).2
      rw [since_snoc, ← ih, isSome_iff_who, isSome_iff_who]
      constructor
      · rintro ⟨w, hw⟩
        rcases (hafter w).mp hw with hopens | ⟨hbefore, hstays⟩
        · exact Or.inl ⟨w, hopens⟩
        · exact Or.inr ⟨⟨w, hbefore⟩, fun hdel => hstays (Or.inr hdel)⟩
      · rintro (⟨w, hopens⟩ | ⟨⟨w, hbefore⟩, hdel⟩)
        · exact ⟨w, (hafter w).mpr (Or.inl hopens)⟩
        · by_cases hopens : Opens P opts env key x
          · obtain ⟨w', hopens⟩ := hopens
            exact ⟨w', (hafter w').mpr (Or.inl hopens)⟩
          · exact ⟨w, (hafter w).mpr (Or.inr ⟨hbefore, fun h => h.elim hopens hdel⟩)⟩

/-- The opening line of a connection that is there has been printed, and no CLOSED line since. -/
theorem opening_since (hruns : Runs P opts env h (db, now))
    (hwho : (P.conns.get db key).map ConnEntry.who = some w) :
    Since (Opening P key w) (Closing P key) (output h) := by
  induction hruns using trace_induction with
  | nil =>
      rw [P.conns.get_empty] at hwho
      cases hwho
  | snoc h x _ hx ih =>
      have heffect := (step_effect hx).2
      rw [output_snoc, since_append]
      rcases change_cases heffect with ⟨hsame, -, -, hlines⟩
        | ⟨orig, e, line, hnew, -, -, hput, hlines, his⟩ | ⟨orig, -, -, -, hdelete, hlines⟩
      · refine Or.inr ⟨ih (hsame key ▸ hwho), ?_⟩
        rintro line hline ⟨hclosed, -⟩
        exact Event.noConfusion ((hlines line hline).symm.trans hclosed)
      · rw [hput, P.conns.get_put] at hwho
        rw [hlines]
        split at hwho
        · next heq =>
            obtain rfl := Option.some.inj hwho
            rw [heq]
            exact Or.inl (since_singleton.mpr ⟨his.event, congrArg P.key his.orig, his.who⟩)
        · refine Or.inr ⟨ih hwho, ?_⟩
          rw [List.forall_mem_singleton]
          rintro ⟨hclosed, -⟩
          exact Event.noConfusion (his.event.symm.trans hclosed)
      · rw [hdelete, P.conns.get_delete] at hwho
        split at hwho
        · cases hwho
        · next hne =>
            refine Or.inr ⟨ih hwho, ?_⟩
            rintro line hline ⟨-, hkey⟩
            obtain ⟨-, e, -, his⟩ := hlines line hline
            rw [his.orig] at hkey
            exact hne hkey.symm

/-- A CLOSED line is the only line for its message, and says what the entry said. -/
theorem closed_entry
    (hx : Effect P opts env x.before x.start x.out.visit x.after x.out.lines)
    (hline : line ∈ x.out.lines) (hclosed : line.event = .closed) : x.out.lines = [line]
      ∧ (P.conns.get x.before (P.key line.orig)).map ConnEntry.who = some line.who := by
  rcases change_cases hx with ⟨-, -, -, hlines⟩ | ⟨orig, e, line', -, -, -, -, hlines, his⟩
    | ⟨orig, -, -, -, -, hlines⟩
  · exact Event.noConfusion ((hlines line hline).symm.trans hclosed)
  · rw [hlines] at hline
    rw [List.mem_singleton.mp hline] at hclosed
    exact Event.noConfusion (his.event.symm.trans hclosed)
  · obtain ⟨hone, e, hent, his⟩ := hlines line hline
    rw [his.orig, hent, his.who]
    exact ⟨hone, rfl⟩

theorem closesOpened (hrun : Gives (run P opts env msgs) 0 (db, steps) later) :
    ClosesOpened P (output steps) := by
  intro before line after hout hclosed
  obtain ⟨h, x, rest, b, a, rfl, hlines, rfl⟩ := exists_split_of_flatMap hout
  obtain ⟨hruns, hx⟩ := run_next hrun
  have hline : line ∈ x.out.lines := by
    rw [hlines]
    exact List.mem_append_right b List.mem_cons_self
  obtain ⟨hone, hwho⟩ := closed_entry (step_effect hx).2 hline hclosed
  obtain rfl := eq_nil_of_singleton hlines hone
  rw [List.append_nil]
  exact opening_since hruns hwho

end Tracep.Nettrace
