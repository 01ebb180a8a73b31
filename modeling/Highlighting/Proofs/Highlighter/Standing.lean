import Highlighting.Proofs.Highlighter.Run

/-!
What stands until the caller changes it.

Theme, grammar, the limits of the scheduler and the visible part each have a call that sets them.
`standingAfter` says what each call leaves of them: whatever else a call does, starting over
included, changes none of them. A grammar that the parser cannot use is never in use.
-/

namespace Highlighting

/-- The grammar of a source, if the parser can use it. -/
def usable (source : Option Grammar) : Option Grammar :=
  source.filter fun g => g.checkAbi = .ok ()

theorem usable_usable (source : Option Grammar) : usable (usable source) = usable source := by
  simp [usable]

namespace Highlighter

variable {h : Highlighter} {engine : ParsingEngine}

/-- What the caller has set. -/
def standing (h : Highlighter) : Theme × Option Grammar × SchedulerConfig × Option Span :=
  (h.theme, h.grammar?, h.scheduler.limits)

/-- What stands after a call. -/
def standingAfter (h : Highlighter) :
    HighlighterCall → Theme × Option Grammar × SchedulerConfig × Option Span
  | .setTheme theme => (theme, h.grammar?, h.scheduler.limits)
  | .setLanguage source => (h.theme, usable source, h.scheduler.limits)
  | .setLanguageFrom registry name =>
    (h.theme, usable (registry.sourceFor name).1, h.scheduler.limits)
  | .setVisible visible =>
    (h.theme, h.grammar?,
      (h.scheduler.setVisible (visible.map (·.clampTo h.snapshot.size))).limits)
  | _ => h.standing

theorem steady_standing : Steady standing where
  stored := fun _ _ _ => rfl
  queued := fun _ _ _ => rfl
  completed := fun h id => by
    simp only [standing, Scheduler.limits_complete]
    rfl
  planned := fun h size => by
    simp only [standing, Scheduler.limits_plan]
    rfl
  settled := fun _ => rfl

theorem standing_takeEdits (h : Highlighter) (edits : List Edit) :
    (h.takeEdits edits).2.standing = h.standing := by
  refine takeEdits_keeps (P := fun x => x.standing = h.standing) (fun x e x' taken same => ?_) rfl
  obtain ⟨-, -, rfl⟩ := takeEdit?_eq_some taken
  refine Eq.trans ?_ same
  unfold followEdit
  cases x.index.lost e.splice with
  | none => rfl
  | some region => rfl

theorem standing_upToDate (h : Highlighter) : (h.upToDate engine).standing = h.standing := by
  unfold upToDate parsed
  cases language : h.language with
  | none => rfl
  | some l =>
      dsimp only
      split
      · simp only [standing, grammar?, language]
        rfl
      · rfl

theorem standing_reconcile (h : Highlighter) : (h.reconcile engine).standing = h.standing :=
  steady_standing.concluded standing_upToDate (.reconcile, h)

theorem standing_queueAll (h : Highlighter) : h.queueAll.standing = h.standing := by
  unfold queueAll
  cases h.attached with
  | true => rfl
  | false => rfl

theorem standing_requeue (h : Highlighter) (span : Option Span) :
    (h.requeue span).standing = h.standing := by
  unfold requeue
  cases h.attached with
  | true => cases span <;> rfl
  | false => rfl

theorem grammar?_discardTree (h : Highlighter) : h.discardTree.grammar? = h.grammar? := by
  simp only [grammar?, discardTree, Option.map_map]
  rfl

theorem standing_discardTree (h : Highlighter) : h.discardTree.standing = h.standing := by
  simp only [standing, grammar?_discardTree]
  rfl

theorem standing_restart (h : Highlighter) : h.restart.standing = h.standing := by
  obtain ⟨notices, eq⟩ := restart_eq h
  rw [eq]
  exact standing_discardTree
    (clearWork { h with log := h.log.reset h.snapshot.revision h.snapshot.size })

theorem standing_follow (h : Highlighter) (snapshot : Snapshot) (edits : List Edit) :
    (h.follow snapshot edits).standing = h.standing := by
  unfold follow
  dsimp only
  split
  · exact (standing_queueAll _).trans ((standing_restart _).trans (standing_takeEdits h edits))
  · exact standing_takeEdits h edits

/-- A grammar that the parser cannot use leaves no language. -/
theorem standing_withLanguage (h : Highlighter) (source : Option Grammar) :
    (h.withLanguage (h.languageFor source).2).standing =
      (h.theme, usable source, h.scheduler.limits) := by
  obtain ⟨notices, eq⟩ := withLanguage_eq h (h.languageFor source).2
  rw [eq]
  cases source with
  | none => rfl
  | some g =>
      unfold languageFor TreeKeeper.forGrammar
      dsimp only
      cases fits : g.checkAbi with
      | error fault =>
          have refused : usable (some g) = none := by simp [usable, fits]
          rw [refused]
          rfl
      | ok _ =>
          have taken : usable (some g) = some g := by simp [usable, fits]
          rw [taken]
          rfl

/-- Only its own call changes what the caller has set. -/
theorem standing_call (engine : ParsingEngine) (h : Highlighter) (c : HighlighterCall) :
    (h.call engine c).standing = h.standingAfter c := by
  rw [call_eq, steady_standing.concluded standing_upToDate]
  cases c with
  | attach =>
      dsimp only [delivered, changed]
      split
      · rfl
      · exact standing_queueAll _
  | detach =>
      dsimp only [delivered, changed, detach]
      split
      · exact standing_discardTree _
      · rfl
  | setLanguage source =>
      exact (standing_queueAll _).trans (standing_withLanguage h source)
  | setLanguageFrom registry name =>
      exact (standing_queueAll _).trans (standing_withLanguage h _)
  | setTheme theme =>
      have grammar : (h.withTheme theme).grammar? = h.grammar? := Option.map_map ..
      refine (standing_requeue _ none).trans ?_
      exact congrArg (fun g => (theme, g, h.scheduler.limits)) grammar
  | textDidChange snapshot edits =>
      exact (standing_follow _ _ _).trans (steady_standing.collectResults h)
  | invalidate span => exact standing_requeue h span
  | poll => exact steady_standing.collectResults h
  | _ => rfl

/-! ### Along every run -/

/-- The scheduler keeps the limits that it was configured with. -/
theorem schedulerConfig_run (engine : ParsingEngine) (h : Highlighter)
    (calls : List HighlighterCall) :
    (h.run engine calls).scheduler.config = h.scheduler.config := by
  induction calls generalizing h with
  | nil => rfl
  | cons c rest ih =>
      refine (ih _).trans ((congrArg (fun t => t.2.2.1) (standing_call engine h c)).trans ?_)
      cases c <;> rfl

/-- A grammar in use is one that the parser can use. -/
theorem usable_grammar?_run (engine : ParsingEngine) {h : Highlighter}
    (start : usable h.grammar? = h.grammar?) (calls : List HighlighterCall) :
    usable (h.run engine calls).grammar? = (h.run engine calls).grammar? := by
  induction calls generalizing h with
  | nil => exact start
  | cons c rest ih =>
      refine ih ?_
      have stands : (h.call engine c).grammar? = (h.standingAfter c).2.1 :=
        congrArg (fun t => t.2.1) (standing_call engine h c)
      rw [stands]
      cases c with
      | setLanguage source => exact usable_usable source
      | setLanguageFrom registry name => exact usable_usable _
      | _ => exact start

end Highlighter

end Highlighting
