import Highlighting.Proofs.Highlighter.Standing
import Highlighting.Proofs.Highlighter.Turns
import Highlighting.Proofs.Scheduler.Renumbering
import Mathlib

/-!
Starting over is starting afresh.

Without a background worker a highlighter that starts over is the same as one that was made for its
text and attached to it. What tells the two apart are the numbers of epochs and jobs, which go on
counting, how the last parse came about, and who listens: two highlighters are `Alike` if they
differ in nothing else, and merging, parsing and handing out work keep them alike. It remains to see
that each way to start over leaves nothing of before (`Cleared`).
-/

namespace Highlighting

/-- The request for the job under its later number. -/
def Request.renumber (epochs ids : Nat) (r : Request) : Request :=
  { r with job := r.job.renumber epochs ids }

/-- The edit may come next: it is numbered on or not at all, and its span is one of the text. -/
def Edit.Continues (revision : Revision) (size : Nat) (e : Edit) : Prop :=
  (e.revision = 0 ∨ e.revision = revision + 1) ∧ e.span.start ≤ e.span.stop ∧ e.span.stop ≤ size

/-- The edits continue a text of some revision and length one by one, up to the revision and length
of the target. -/
def LinesUp (target : Snapshot) : Revision → Nat → List Edit → Prop
  | revision, size, [] => revision = target.revision ∧ size = target.size
  | revision, size, e :: rest =>
    e.Continues revision size ∧
      LinesUp target (revision + 1) (size - e.span.length + e.text.size) rest

namespace Highlighter

variable {h k : Highlighter} {engine : ParsingEngine} {epochs ids : Nat}

/-- The two highlighters are the same but for the numbers of epochs and jobs, by which the first is
ahead, the mode of the last parse, and the listeners with what was announced to them. -/
structure Alike (epochs ids : Nat) (h k : Highlighter) : Prop where
  config : h.config = k.config
  theme : h.theme = k.theme
  rules : h.language.map Language.rules = k.language.map Language.rules
  tree : h.tree? = k.tree?
  snapshot : h.snapshot = k.snapshot
  log : h.log = k.log
  index : h.index = k.index
  scheduler : h.scheduler = k.scheduler.renumber epochs ids
  deferred : h.deferred = k.deferred.map (Request.renumber epochs ids)
  alone : h.worker = none ∧ k.worker = none
  attached : h.attached = k.attached
  parseDue : h.parseDue = k.parseDue
  failures : (h.language.bind fun l => l.keeper.failures) =
    k.language.bind fun l => l.keeper.failures
  degraded : h.degraded = k.degraded

/-- Alike highlighters have the same language, if any, with the same tree. -/
theorem Alike.language (alike : Alike epochs ids h k) :
    h.language = none ∧ k.language = none ∨
      ∃ l m, h.language = some l ∧ k.language = some m ∧ l.rules = m.rules ∧
        l.keeper.tree = m.keeper.tree := by
  have rules := alike.rules
  have tree := alike.tree
  unfold tree? at tree
  cases own : h.language with
  | none =>
      rw [own] at rules
      exact Or.inl ⟨rfl, Option.map_eq_none_iff.mp rules.symm⟩
  | some l =>
      rw [own] at rules tree
      obtain ⟨m, other, same⟩ := Option.map_eq_some_iff.mp rules.symm
      rw [other] at tree
      exact Or.inr ⟨l, m, rfl, other, same.symm, tree⟩

theorem Alike.basis? (alike : Alike epochs ids h k) : h.basis? = k.basis? := by
  unfold Highlighter.basis?
  rcases alike.language with ⟨own, other⟩ | ⟨l, m, own, other, rules, tree⟩
  · rw [own, other]
  · rw [own, other, Option.bind_some, Option.bind_some, rules, tree]

theorem Alike.isDegraded (alike : Alike epochs ids h k) : h.isDegraded = k.isDegraded := by
  unfold Highlighter.isDegraded
  rw [alike.degraded, alike.snapshot]

theorem Alike.parsePending (alike : Alike epochs ids h k) : h.parsePending = k.parsePending := by
  have language : h.language.isSome = k.language.isSome := by
    rcases alike.language with ⟨own, other⟩ | ⟨l, m, own, other, -⟩
    · rw [own, other]
    · rw [own, other]
      rfl
  unfold Highlighter.parsePending
  rw [alike.attached, alike.parseDue, language, alike.isDegraded]

/-- The phases of alike highlighters are the same. -/
theorem Alike.phase (alike : Alike epochs ids h k) : h.phase = k.phase := by
  unfold Highlighter.phase
  rw [alike.parsePending, alike.scheduler]
  rfl

/-! ### Merging -/

theorem Alike.with_scheduler (alike : Alike epochs ids h k) (s : Scheduler) :
    Alike epochs ids { h with scheduler := s.renumber epochs ids } { k with scheduler := s } :=
  { alike with scheduler := rfl }

theorem Alike.finishApplying (alike : Alike epochs ids h k) :
    Alike epochs ids { h with scheduler := h.scheduler.finishApplying }
      { k with scheduler := k.scheduler.finishApplying } := by
  rw [alike.scheduler, Scheduler.finishApplying, Scheduler.settlePhase_renumber]
  exact alike.with_scheduler _

theorem Alike.merge (alike : Alike epochs ids h k) (s : Span) (runs : List StyleRun) :
    Alike epochs ids (h.merge s runs) (k.merge s runs) := by
  obtain ⟨outbox, own⟩ := merge_eq h s runs
  obtain ⟨outbox', other⟩ := merge_eq k s runs
  rw [own, other]
  exact { alike with index := congrArg (StyleIndex.store · s runs) alike.index }

theorem Alike.finish (alike : Alike epochs ids h k) (id : JobId) (runs : List StyleRun) :
    Alike epochs ids (h.finish (id + ids) runs).2 (k.finish id runs).2 := by
  unfold Highlighter.finish
  rw [alike.scheduler, Scheduler.complete_renumber]
  cases k.scheduler.complete id with
  | mk completion scheduler =>
      cases completion with
      | merge job => exact ((alike.with_scheduler scheduler).merge job.span runs).finishApplying
      | stale job => exact alike.with_scheduler scheduler
      | unknown => exact alike.with_scheduler scheduler

/-! ### Handing out work -/

theorem Alike.classify (alike : Alike epochs ids h k) (s : Span) : h.classify s = k.classify s := by
  unfold Highlighter.classify
  rw [alike.basis?]

theorem Alike.foldl_classifyNow (alike : Alike epochs ids h k) (spans : List Span) :
    Alike epochs ids (spans.foldl classifyNow h) (spans.foldl classifyNow k) := by
  induction spans generalizing h k with
  | nil => exact alike
  | cons s rest ih =>
      refine ih ?_
      unfold classifyNow
      rw [alike.classify s]
      exact alike.merge s _

theorem Alike.foldl_finishPlain (alike : Alike epochs ids h k) (jobs : List Job) :
    Alike epochs ids ((jobs.map (Job.renumber epochs ids)).foldl finishPlain h)
      (jobs.foldl finishPlain k) := by
  induction jobs generalizing h k with
  | nil => exact alike
  | cons job rest ih => exact ih (alike.finish job.id _)

theorem Alike.submit (alike : Alike epochs ids h k) (rs : List Request) :
    Alike epochs ids (h.submit (rs.map (Request.renumber epochs ids))) (k.submit rs) := by
  obtain ⟨worker, deferred, own, -, queued⟩ :=
    submit_eq h (rs.map (Request.renumber epochs ids))
  obtain ⟨worker', deferred', other, -, queued'⟩ := submit_eq k rs
  obtain ⟨none, waits⟩ := queued alike.alone.1
  obtain ⟨none', waits'⟩ := queued' alike.alone.2
  rw [own, other]
  refine { alike with deferred := ?_, alone := ⟨none, none'⟩ }
  rw [waits, waits', alike.deferred, List.map_append]

theorem Alike.dispatch (alike : Alike epochs ids h k) (jobs : List Job) :
    Alike epochs ids (h.dispatch (jobs.map (Job.renumber epochs ids))) (k.dispatch jobs) := by
  cases basis : k.basis? with
  | none =>
      rw [dispatch_of_none basis, dispatch_of_none (alike.basis?.trans basis)]
      exact alike.foldl_finishPlain jobs
  | some basis' =>
      have sent := alike.submit (jobs.map fun job => ⟨job, basis'.1, basis'.2⟩)
      rw [List.map_map] at sent
      rw [dispatch_of_some basis, dispatch_of_some (alike.basis?.trans basis), List.map_map]
      exact sent

theorem Alike.pump (alike : Alike epochs ids h k) : Alike epochs ids h.pump k.pump := by
  have size : h.snapshot.size = k.snapshot.size := congrArg Snapshot.size alike.snapshot
  have planned := alike.with_scheduler (k.scheduler.plan k.snapshot.size).2
  unfold Highlighter.pump
  rw [alike.parsePending, alike.scheduler, size, Scheduler.plan_renumber]
  split
  · exact alike
  · dsimp only
    rw [Plan.isEmpty_renumber]
    split
    · exact planned
    · exact ((planned.foldl_classifyNow _).dispatch _).finishApplying

/-! ### Parsing -/

theorem mode_parseAfresh_ne_skipped (k : TreeKeeper) (parse : Parser) (target : Snapshot) :
    (k.parseAfresh parse target).mode ≠ .skipped := by
  intro skipped
  have afresh := TreeKeeper.reuses_parseAfresh k parse target
  rw [skipped] at afresh
  cases afresh

/-- How the last parse came about does not matter to the next. -/
theorem outcome_congr {l m : TreeKeeper} (tree : l.tree = m.tree) (parse : Parser)
    (edits : List Edit) (target : Snapshot) :
    (l.outcome parse edits target).tree = (m.outcome parse edits target).tree ∧
      (l.outcome parse edits target).changed = (m.outcome parse edits target).changed ∧
      ((l.outcome parse edits target).mode = .skipped ↔
        (m.outcome parse edits target).mode = .skipped) := by
  have afresh : (l.parseAfresh parse target).mode = .skipped ↔
      (m.parseAfresh parse target).mode = .skipped :=
    iff_of_false (mode_parseAfresh_ne_skipped l parse target)
      (mode_parseAfresh_ne_skipped m parse target)
  unfold TreeKeeper.outcome
  rw [tree]
  cases m.tree with
  | none => exact ⟨rfl, rfl, afresh⟩
  | some t =>
      dsimp only
      split
      · exact ⟨rfl, rfl, Iff.rfl⟩
      · split
        · exact ⟨rfl, rfl, Iff.rfl⟩
        · exact ⟨rfl, rfl, afresh⟩

theorem Alike.reparsed (alike : Alike epochs ids h k) {l m : Language} (own : h.language = some l)
    (other : k.language = some m) (rules : l.rules = m.rules)
    (tree : l.keeper.tree = m.keeper.tree) :
    Alike epochs ids (h.reparsed engine l) (k.reparsed engine m) := by
  obtain ⟨parsed, changed, skipped⟩ :=
    outcome_congr tree (engine m.rules.grammar) k.log.pending k.snapshot
  have failed : l.keeper.failures = m.keeper.failures := by
    have failures := alike.failures
    rw [own, other] at failures
    exact failures
  have request : (h.reparsed engine l).scheduler =
      (k.reparsed engine m).scheduler.renumber epochs ids := by
    unfold Highlighter.reparsed adopt TreeKeeper.reparse
    dsimp only
    rw [rules, alike.log, alike.snapshot, changed, alike.scheduler]
    exact Scheduler.request_renumber k.scheduler.beginReparse _
  have follows : (h.reparsed engine l).tree? = (k.reparsed engine m).tree? := by
    unfold Highlighter.reparsed adopt TreeKeeper.reparse
    dsimp only [tree?, Option.bind_some]
    rw [rules, alike.log, alike.snapshot, parsed]
  have failures : ((h.reparsed engine l).language.bind fun l => l.keeper.failures) =
      (k.reparsed engine m).language.bind fun l => l.keeper.failures := by
    unfold Highlighter.reparsed adopt TreeKeeper.reparse
    dsimp only [Option.bind_some]
    simp only [rules, alike.log, alike.snapshot, skipped, failed]
  exact { alike with
    rules := congrArg some rules
    tree := follows
    scheduler := request
    log := congrArg EditLog.drain alike.log
    failures }

theorem Alike.parsed (alike : Alike epochs ids h k) :
    Alike epochs ids (h.parsed engine) (k.parsed engine) := by
  unfold Highlighter.parsed
  rw [alike.parsePending]
  rcases alike.language with ⟨own, other⟩ | ⟨l, m, own, other, rules, tree⟩
  · rw [own, other]
    exact alike
  · rw [own, other]
    dsimp only
    split
    · exact alike.reparsed own other rules tree
    · exact alike

theorem Alike.reconcile (alike : Alike epochs ids h k) :
    Alike epochs ids (h.reconcile engine) (k.reconcile engine) := by
  unfold Highlighter.reconcile
  rw [alike.attached]
  split
  · have parsed : Alike epochs ids (h.parsed engine) (k.parsed engine) := alike.parsed
    rw [parseIfPending_eq, parseIfPending_eq]
    exact Alike.pump { parsed with parseDue := rfl, log := congrArg EditLog.drain parsed.log }
  · exact alike

/-! ### A fresh highlighter -/

/-- A highlighter that was made for a text, set to a language and then attached. -/
def fresh (engine : ParsingEngine) (target : Snapshot) (theme : Theme) (config : HighlighterConfig)
    (source : Option Grammar) (visible : Option Span) : Highlighter :=
  let h := ((make target theme config).setLanguage engine source).2
  attach engine { h with scheduler := { h.scheduler with visible } }

/-- Ready to start over from a text, with nothing left over. -/
structure Cleared (target : Snapshot) (h : Highlighter) : Prop where
  snapshot : h.snapshot = target
  log : h.log = .start target.revision target.size
  revision : h.scheduler.revision = target.revision
  released : h.Released
  rules : ∀ l, h.language = some l → l.rules = .make l.rules.grammar h.theme
  unfailed : ∀ l, h.language = some l → l.keeper.failures = none
  attached : h.attached = true

theorem Cleared.failures_eq {target : Snapshot} (cleared : h.Cleared target) :
    (h.language.bind fun l => l.keeper.failures) = none := by
  cases language : h.language with
  | none => rfl
  | some l => exact cleared.unfailed l language

theorem Cleared.rules_eq {target : Snapshot} (cleared : h.Cleared target) :
    h.language.map Language.rules = h.grammar?.map fun g => Rules.make g h.theme := by
  unfold grammar?
  cases language : h.language with
  | none => rfl
  | some l => exact congrArg some (cleared.rules l language)

/-- Highlighters that start over from the same text under the same settings are alike. -/
theorem Cleared.alike {target : Snapshot} (own : h.Cleared target) (other : k.Cleared target)
    (config : h.config = k.config) (standing : h.standing = k.standing)
    (epoch : h.scheduler.epoch = k.scheduler.epoch + epochs)
    (lastJob : h.scheduler.lastJob = k.scheduler.lastJob + ids) :
    Alike epochs ids (h.startOver engine) (k.startOver engine) := by
  obtain ⟨theme, settings⟩ := Prod.mk.inj standing
  obtain ⟨grammar, limits⟩ := Prod.mk.inj settings
  -- With no job on the books they differ in the counters alone.
  have queued : ∀ size, h.scheduler.invalidateAll size =
      (k.scheduler.invalidateAll size).renumber epochs ids :=
    Scheduler.invalidateAll_eq_renumber limits (own.revision.trans other.revision.symm) epoch
      lastJob own.released.jobs other.released.jobs
  rw [startOver_of_attached own.attached, startOver_of_attached other.attached]
  refine Alike.reconcile {
    config
    theme
    rules := ?_
    tree := own.released.tree.trans other.released.tree.symm
    snapshot := own.snapshot.trans other.snapshot.symm
    log := own.log.trans other.log.symm
    index := own.released.index.trans other.released.index.symm
    scheduler := ?_
    deferred := ?_
    alone := ⟨own.released.worker, other.released.worker⟩
    attached := own.attached.trans other.attached.symm
    parseDue := rfl
    failures := own.failures_eq.trans other.failures_eq.symm
    degraded := own.released.degraded.trans other.released.degraded.symm }
  · dsimp only
    rw [own.rules_eq, other.rules_eq, grammar, theme]
  · dsimp only
    rw [own.snapshot, other.snapshot]
    exact queued target.size
  · dsimp only
    rw [own.released.deferred, other.released.deferred]
    rfl

theorem attach_of_detached (detached : h.attached = false) (off : h.config.background = false) :
    h.attach engine = startOver engine { h with attached := true, worker := none } := by
  rw [attach_eq, if_neg (by simp [detached]), off]
  rfl

theorem Balanced.log_eq (balanced : h.Balanced) :
    h.log = .start h.snapshot.revision h.snapshot.size := by
  unfold EditLog.start
  rw [← balanced.revision, ← balanced.size, ← balanced.drained]

/-- While detached nothing is left of the work of before. -/
theorem Balanced.cleared (balanced : h.Balanced) (detached : h.attached = false) :
    Cleared h.snapshot { h with attached := true, worker := none } where
  snapshot := rfl
  log := balanced.log_eq
  revision := balanced.ledger.revision.trans balanced.revision
  released := { balanced.released detached with worker := rfl }
  rules := balanced.rules
  unfailed := balanced.unfailed.2
  attached := rfl

theorem fresh_eq (engine : ParsingEngine) (target : Snapshot) (theme : Theme)
    {config : HighlighterConfig} (off : config.background = false) (source : Option Grammar)
    (visible : Option Span) :
    ∃ k : Highlighter, fresh engine target theme config source visible = k.startOver engine ∧
      k.Cleared target ∧ k.config = config ∧
      k.standing = (theme, usable source, config.scheduler, visible) ∧
      k.scheduler.epoch = 1 ∧ k.scheduler.lastJob = 0 := by
  have balanced : ((make target theme config).setLanguage engine source).2.Balanced :=
    ((balanced_make target theme config).turn (.setLanguage source)).balanced
  have standing : ((make target theme config).setLanguage engine source).2.standing =
      (theme, usable source, config.scheduler, none) := standing_call engine _ (.setLanguage source)
  obtain ⟨language, notices, eq, -⟩ := setLanguage_eq engine (make target theme config) source
  unfold fresh
  dsimp only
  rw [eq] at balanced standing ⊢
  have cleared := balanced.cleared rfl
  refine ⟨_, attach_of_detached rfl off, ?_, rfl, ?_, rfl, rfl⟩
  · exact { cleared with released := { cleared.released with } }
  · exact congrArg (fun t => (t.1, t.2.1, t.2.2.1, visible)) standing

/-- The highlighter is one that started over from a text, under some settings and with nothing left
over. -/
def StartsOver (engine : ParsingEngine) (target : Snapshot) (config : HighlighterConfig)
    (settings : Theme × Option Grammar × SchedulerConfig × Option Span) (h : Highlighter) : Prop :=
  ∃ x : Highlighter, h = x.startOver engine ∧ x.Cleared target ∧ x.config = config ∧
    x.standing = settings ∧ 1 ≤ x.scheduler.epoch

/-- What started over with nothing left over is like a fresh highlighter. -/
theorem StartsOver.alike_fresh {target : Snapshot} {theme : Theme} {config : HighlighterConfig}
    {source : Option Grammar} {visible : Option Span}
    (started : h.StartsOver engine target config
      (theme, usable source, config.scheduler, visible))
    (off : config.background = false) :
    ∃ epochs ids, Alike epochs ids h (fresh engine target theme config source visible) := by
  obtain ⟨x, rfl, own, config', standing, begun⟩ := started
  obtain ⟨k, eq, other, config'', standing', epoch, lastJob⟩ :=
    fresh_eq engine target theme off source visible
  obtain ⟨epochs, ahead⟩ := Nat.exists_eq_add_of_le begun
  rw [eq]
  refine ⟨epochs, x.scheduler.lastJob, own.alike other (config'.trans config''.symm)
    (standing.trans standing'.symm) ?_ ?_⟩
  · rw [epoch]
    exact ahead
  · rw [lastJob, Nat.zero_add]

/-! ### A batch that does not line up -/

/-- An edit is refused just if it does not continue the log. -/
theorem takeEdit?_eq_none_iff {e : Edit} :
    h.takeEdit? e = none ↔ ¬e.Continues h.log.revision h.log.size := by
  unfold takeEdit? EditLog.record Edit.check Edit.Continues
  by_cases next : e.revision = 0 ∨ e.revision = h.log.revision + 1
  · rw [if_neg (fun gap => (not_or.mpr gap) next), and_iff_right next]
    split_ifs
    · simp only [true_iff]
      omega
    · simp only [true_iff]
      omega
    · simp only [false_iff, not_not]
      omega
  · rw [if_pos (not_or.mp next)]
    simp [next]

theorem linesUp_iff {target : Snapshot} {edits : List Edit} :
    LinesUp target h.log.revision h.log.size edits ↔
      (h.takeEdits edits).1 = true ∧ (h.takeEdits edits).2.agreesWith target = true := by
  induction edits generalizing h with
  | nil => simp [LinesUp, takeEdits, agreesWith]
  | cons e rest ih =>
      unfold LinesUp takeEdits
      cases taken : h.takeEdit? e with
      | none =>
          have refused := takeEdit?_eq_none_iff.mp taken
          simp [refused]
      | some h' =>
          have continues : e.Continues h.log.revision h.log.size := by
            by_contra refused
            rw [takeEdit?_eq_none_iff.mpr refused] at taken
            cases taken
          obtain ⟨-, -, rfl⟩ := takeEdit?_eq_some taken
          rw [and_iff_right continues]
          dsimp only
          rw [← ih]

/-- After a batch that does not line up nothing is left of the work of before. -/
theorem Balanced.startsOver_textDidChange (balanced : h.Balanced) (attached : h.attached = true)
    (off : h.config.background = false) (engine : ParsingEngine) (target : Snapshot)
    (edits : List Edit) (amiss : ¬LinesUp target h.log.revision h.log.size edits) :
    (h.textDidChange engine target edits).StartsOver engine target h.config h.standing := by
  obtain ⟨collected, same⟩ := balanced.collectResults
  obtain ⟨log, scheduler, index, eq, -⟩ := takeEdits_eq h.collectResults.2 edits
  have standing := (standing_takeEdits h.collectResults.2 edits).trans
    (steady_standing.collectResults h)
  have apart : ((h.collectResults.2.takeEdits edits).1 &&
      (h.collectResults.2.takeEdits edits).2.agreesWith target) = false := by
    rw [← Bool.not_eq_true, Bool.and_eq_true, ← linesUp_iff, same.log]
    exact amiss
  obtain ⟨notices, restarted⟩ :=
    restart_eq { h.collectResults.2 with log, scheduler, index, snapshot := target }
  unfold textDidChange
  dsimp only
  rw [follow_of_astray apart, eq, restarted]
  rw [eq] at standing
  refine ⟨_, rfl, ⟨rfl, rfl, rfl, ⟨rfl, tree?_discardTree _, rfl, rfl, ?_, rfl⟩, ?_,
    failures_map collected.unfailed.2 fun _ => rfl, ?_⟩, same.config, ?_, Nat.le_add_left _ _⟩
  · exact collected.queued.1 (same.config ▸ off)
  · exact rules_discardTree collected.rules
  · exact same.attached.trans attached
  · exact (standing_discardTree _).trans standing

/-! ### Changes while detached -/

theorem epoch_takeEdits (h : Highlighter) (edits : List Edit) :
    (h.takeEdits edits).2.scheduler.epoch = h.scheduler.epoch := by
  refine takeEdits_keeps (P := fun x => x.scheduler.epoch = h.scheduler.epoch)
    (fun x e x' taken same => ?_) rfl
  obtain ⟨-, -, rfl⟩ := takeEdit?_eq_some taken
  exact (followEdit_cases _ _ _).2.1.trans same

/-- A change while detached goes no further than the books. -/
theorem Balanced.textDidChange_of_detached (balanced : h.Balanced) (detached : h.attached = false)
    (engine : ParsingEngine) (target : Snapshot) (edits : List Edit) :
    (h.textDidChange engine target edits).attached = false ∧
      h.scheduler.epoch ≤ (h.textDidChange engine target edits).scheduler.epoch := by
  obtain ⟨log, scheduler, index, eq, -⟩ := takeEdits_eq h edits
  have epoch := epoch_takeEdits h edits
  have detached' : (h.takeEdits edits).2.attached = false := by
    rw [eq]
    exact detached
  suffices followed : (h.follow target edits).attached = false ∧
      h.scheduler.epoch ≤ (h.follow target edits).scheduler.epoch by
    unfold textDidChange
    dsimp only
    rw [collectResults_of_released (balanced.released detached), reconcile_of_detached followed.1]
    exact followed
  unfold follow
  dsimp only
  split
  · obtain ⟨notices, restarted⟩ := restart_eq { (h.takeEdits edits).2 with snapshot := target }
    rw [restarted]
    unfold queueAll discardTree clearWork
    rw [if_neg (by simp [detached'])]
    exact ⟨detached', epoch ▸ Nat.le_succ _⟩
  · exact ⟨detached', epoch.ge⟩

theorem Balanced.run_changes (balanced : h.Balanced) (detached : h.attached = false)
    (engine : ParsingEngine) (changes : List (Snapshot × List Edit)) :
    let x := h.run engine (changes.map fun c => .textDidChange c.1 c.2)
    x.attached = false ∧ h.scheduler.epoch ≤ x.scheduler.epoch ∧ x.standing = h.standing ∧
      x.snapshot = (changes.map Prod.fst).getLastD h.snapshot := by
  induction changes generalizing h with
  | nil => exact ⟨detached, Nat.le_refl _, rfl, rfl⟩
  | cons c rest ih =>
      have changed : (h.call engine (.textDidChange c.1 c.2)).Balanced :=
        (balanced.turn _).balanced
      obtain ⟨detached', later⟩ :=
        balanced.textDidChange_of_detached detached engine c.1 c.2
      obtain ⟨still, further, standing, snapshot⟩ := ih changed detached'
      refine ⟨still, later.trans further,
        standing.trans (standing_call engine h (.textDidChange c.1 c.2)), ?_⟩
      refine snapshot.trans ?_
      rw [List.map_cons, List.getLastD_cons]
      exact congrArg _ (congrArg Prod.snd (frame_call engine h (.textDidChange c.1 c.2)))

/-- Attaching again leaves nothing of the work of before, whatever the changes while detached. -/
theorem Balanced.startsOver_attach (balanced : h.Balanced) (attached : h.attached = true)
    (off : h.config.background = false) (engine : ParsingEngine)
    (changes : List (Snapshot × List Edit)) :
    ((h.detach.run engine (changes.map fun c => .textDidChange c.1 c.2)).attach engine).StartsOver
      engine ((changes.map Prod.fst).getLastD h.snapshot) h.config h.standing := by
  have turn : Turn engine h .detach true h.detach := balanced.turn_detach
  have released : h.detach.Balanced := turn.balanced
  have standing : h.detach.standing = h.standing := standing_call engine h .detach
  have left : h.detach = discardTree (clearWork { h with attached := false, worker := none }) := by
    unfold detach
    rw [if_pos attached]
  have detached : h.detach.attached = false := by
    rw [left]
    rfl
  have begun : 1 ≤ h.detach.scheduler.epoch := by
    rw [left]
    exact Nat.le_add_left _ _
  obtain ⟨detached', later, standing', snapshot⟩ :=
    released.run_changes detached engine changes
  have config : (h.detach.run engine (changes.map fun c => .textDidChange c.1 c.2)).config =
      h.config := by
    rw [config_run, left]
    rfl
  have text : h.detach.snapshot = h.snapshot := by
    rw [left]
    rfl
  rw [← text, ← snapshot]
  exact ⟨_, attach_of_detached detached' (config ▸ off), (released.run _).cleared detached', config,
    standing'.trans standing, begun.trans later⟩

/-! ### A new language -/

theorem Balanced.startsOver_setLanguage (balanced : h.Balanced) (attached : h.attached = true)
    (off : h.config.background = false) (engine : ParsingEngine) (source : Option Grammar) :
    (h.setLanguage engine source).2.StartsOver engine h.snapshot h.config
      (h.theme, usable source, h.scheduler.limits) := by
  have standing : (h.setLanguage engine source).2.standing =
      (h.theme, usable source, h.scheduler.limits) := standing_call engine h (.setLanguage source)
  obtain ⟨language, notices, eq, made⟩ := setLanguage_eq engine h source
  rw [eq, startOver, standing_reconcile, standing_queueAll] at standing
  have log : h.log.drain = .start h.snapshot.revision h.snapshot.size := by
    rw [balanced.log_eq]
    rfl
  refine ⟨_, eq, ⟨rfl, log, balanced.revision, ⟨rfl, ?_, rfl, rfl, balanced.queued.1 off, rfl⟩,
    fun l hl => (made l hl).1, fun l hl => congrArg TreeKeeper.failures (made l hl).2, attached⟩,
    rfl, standing, Nat.le_add_left _ _⟩
  unfold tree?
  dsimp only
  cases language with
  | none => rfl
  | some l => exact congrArg TreeKeeper.tree (made l rfl).2

/-! ### All ways to start over -/

/-- Starting over is starting afresh. A batch that does not line up with the new text, attaching
again after changes while detached, and a new language each lead to the state of a highlighter that
was made for the text, with the same theme, configuration, language and visible part, and then
attached. -/
theorem starts_over_afresh (engine : ParsingEngine) (snapshot : Snapshot) (theme : Theme)
    (config : HighlighterConfig) (calls : List HighlighterCall) (off : config.background = false) :
    let h := (make snapshot theme config).run engine calls
    let anew := fun target source =>
      fresh engine target h.theme config source h.scheduler.visible
    h.attached = true →
      (∀ target edits, ¬LinesUp target h.snapshot.revision h.snapshot.size edits →
        ∃ epochs ids, Alike epochs ids (h.textDidChange engine target edits)
          (anew target h.grammar?)) ∧
      (∀ changes : List (Snapshot × List Edit),
        ∃ epochs ids, Alike epochs ids
          ((h.detach.run engine (changes.map fun c => .textDidChange c.1 c.2)).attach engine)
          (anew ((changes.map Prod.fst).getLastD h.snapshot) h.grammar?)) ∧
      ∀ source, ∃ epochs ids, Alike epochs ids (h.setLanguage engine source).2
        (anew h.snapshot source) := by
  intro h anew attached
  have balanced : h.Balanced := (balanced_make snapshot theme config).run calls
  have same : h.config = config := config_run engine _ calls
  have off' : h.config.background = false := by
    rw [same]
    exact off
  have limits : h.scheduler.limits = (config.scheduler, h.scheduler.visible) :=
    congrArg (·, h.scheduler.visible) (schedulerConfig_run engine _ calls)
  have grammar : usable h.grammar? = h.grammar? := usable_grammar?_run engine rfl calls
  have standing : h.standing =
      (h.theme, usable h.grammar?, config.scheduler, h.scheduler.visible) := by
    rw [grammar, ← limits]
    rfl
  refine ⟨fun target edits amiss => ?_, fun changes => ?_, fun source => ?_⟩
  · rw [← balanced.revision, ← balanced.size] at amiss
    have started :=
      balanced.startsOver_textDidChange attached off' engine target edits amiss
    rw [same, standing] at started
    exact started.alike_fresh off
  · have started := balanced.startsOver_attach attached off' engine changes
    rw [same, standing] at started
    exact started.alike_fresh off
  · have started := balanced.startsOver_setLanguage attached off' engine source
    rw [same, limits] at started
    exact started.alike_fresh off

/-- The second edit of a batch leaves out a revision, after the first was taken. The highlighter
starts over; its job has the span and the revision of the fresh highlighter's, under later
numbers. -/
theorem afresh_after_revision_gap :
    let engine : ParsingEngine := fun _ _ _ => ⟨[⟨⟨0, 2⟩, 0, 0, 0⟩], []⟩
    let grammar : Grammar := ⟨"words", 14, some ⟨["word"], [[]]⟩, [100]⟩
    let config : HighlighterConfig := ⟨⟨0, 0, 4, 1⟩, 2, false⟩
    let calls : List HighlighterCall :=
      [.setLanguage (some grammar), .setVisible (some ⟨3, 6⟩), .attach, .poll]
    let target : Snapshot := ⟨3, .ofString "ab\ncxyd\nef\n"⟩
    let edits : List Edit := [⟨1, ⟨4, 4⟩, .ofString "x"⟩, ⟨3, ⟨5, 5⟩, .ofString "y"⟩]
    ∃ h : Highlighter,
      h = (make ⟨0, .ofString "ab\ncd\nef\n"⟩ ⟨[("word", 7)]⟩ config).run engine calls ∧
      (h.takeEdits edits).2.log.pending.length = 1 ∧
      (h.textDidChange engine target edits).scheduler.inFlight = [⟨3, 4, 3, ⟨3, 7⟩⟩] ∧
      (fresh engine target ⟨[("word", 7)]⟩ config (some grammar) (some ⟨3, 6⟩)).scheduler.inFlight =
        [⟨1, 2, 3, ⟨3, 7⟩⟩] ∧
      ∃ epochs ids, Alike epochs ids (h.textDidChange engine target edits)
        (fresh engine target ⟨[("word", 7)]⟩ config (some grammar) (some ⟨3, 6⟩)) := by
  intro engine grammar config calls target edits
  have afresh := starts_over_afresh engine ⟨0, .ofString "ab\ncd\nef\n"⟩ ⟨[("word", 7)]⟩
    config calls rfl
  generalize ran : (make ⟨0, .ofString "ab\ncd\nef\n"⟩ ⟨[("word", 7)]⟩ config).run engine calls = h
    at afresh ⊢
  have theme : h.theme = ⟨[("word", 7)]⟩ := by
    rw [← ran]
    cbv
  have source : h.grammar? = some grammar := by
    rw [← ran]
    cbv
  have visible : h.scheduler.visible = some ⟨3, 6⟩ := by
    rw [← ran]
    cbv
  have amiss : ¬LinesUp target h.snapshot.revision h.snapshot.size edits := by
    have revision : h.snapshot.revision = 0 := by
      rw [← ran]
      cbv
    simp [LinesUp, Edit.Continues, edits, revision]
  obtain ⟨gap, -⟩ := afresh (by rw [← ran]; cbv)
  have alike := gap target edits amiss
  rw [theme, source, visible] at alike
  refine ⟨h, rfl, ?_, ?_, by cbv, alike⟩
  · rw [← ran]
    cbv
  · rw [← ran]
    cbv

end Highlighter

end Highlighting
