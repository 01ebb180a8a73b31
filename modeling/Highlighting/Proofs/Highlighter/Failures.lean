import Highlighting.Proofs.Highlighter.Turns
import Mathlib.Logic.Function.Iterate

/-!
Texts that the parsing library gives up on.

After a failed parse no work is handed out. The parse stays due, and each poll attempts it again
(`Failing`). When so many attempts have failed as the configuration allows, the text is given up: all
of it reads as unclassified, which is announced once, and polls leave it so (`GivenUp`). That this is
the whole course of it is `given_up_after_failures`.

What the highlighter keeps meanwhile is enough to go on from. Once an attempt is answered, or the
text that was given up is changed, all holds again that holds while parses are answered
(`Failing.recovers`, `GivenUp.recovers`).
-/

namespace Highlighting

namespace Highlighter

variable {h x : Highlighter} {engine : FallibleEngine} {answering : ParsingEngine} {l : Language}
  {failed : Nat}

open TreeKeeper (GivesUp)

/-! ### The state between two attempts -/

/-- What the listeners and the readers of a highlighter see, and what it runs under. -/
def shown (h : Highlighter) : (HighlighterConfig × Snapshot) × Listeners × StyleIndex × List Notice :=
  (h.frame, h.listeners, h.index, h.outbox)

/-- A parse of the text in a language is due and the parser will be asked. So many attempts at the
text have failed. -/
structure Failing (h : Highlighter) (l : Language) (failed : Nat) : Prop where
  prepared : h.Prepared
  due : h.parseDue = true
  superseded : h.scheduler.liveJobs = []
  language : h.language = some l
  asks : l.keeper.asks h.log.pending h.snapshot ≠ none
  count : l.keeper.failureCount h.snapshot.revision = failed

/-- The text was given up, and nothing is left to do. -/
structure GivenUp (h : Highlighter) : Prop where
  ledger : h.Ledger
  attached : h.attached = true
  revision : h.log.revision = h.snapshot.revision
  rules : ∀ l, h.language = some l → l.rules = .make l.rules.grammar h.theme
  queued : h.Queued
  degraded : h.degraded = some h.snapshot.revision
  treeless : ∀ l, h.language = some l → l.keeper.tree = none
  index : h.index = .empty
  dirty : h.scheduler.dirty = .empty
  jobs : h.scheduler.inFlight = []
  phase : h.scheduler.phase = .idle

theorem Failing.parsePending_eq_true (failing : h.Failing l failed) : h.parsePending = true :=
  failing.prepared.parsePending_eq_true failing.due failing.language

theorem GivenUp.isDegraded_eq_true (given : h.GivenUp) : h.isDegraded = true := by
  simp [isDegraded, given.degraded]

theorem GivenUp.parsePending_eq_false (given : h.GivenUp) : h.parsePending = false := by
  simp [parsePending, given.isDegraded_eq_true]

/-- A text that was given up is idle and unclassified. -/
theorem GivenUp.isIdle_eq_true (given : h.GivenUp) : h.isIdle = true := by
  simp [isIdle, given.parsePending_eq_false, Scheduler.isIdle, given.dirty, given.jobs,
    SpanSet.isEmpty, SpanSet.empty]

theorem GivenUp.styleAt_eq (given : h.GivenUp) (o : Nat) : h.styleAt o = .unclassified := by
  unfold Highlighter.styleAt
  split
  · rfl
  · rw [given.index]
    rfl

/-! ### One attempt -/

/-- The highlighter after an attempt that failed, before it is counted whether the text is to be
given up. -/
def tried (h : Highlighter) (l : Language) : Highlighter :=
  { h with
    language := some { l with keeper := l.keeper.fail h.snapshot.revision }
    log := h.log.drain
    scheduler := h.scheduler.beginReparse }

/-- A failed attempt ends the call. The text is given up with the last attempt that is allowed. -/
theorem Failing.reconcile_eq (failing : h.Failing l failed)
    (givesUp : GivesUp (engine.parser l.rules.grammar) h.snapshot) :
    h.reconcile engine =
      if h.config.maxParseFailures ≤ failed + 1 then (h.tried l).degrade else h.tried l := by
  have attempt := TreeKeeper.attempt_of_givesUp givesUp failing.asks
  have count := l.keeper.failureCount_fail h.snapshot.revision
  rw [failing.count] at count
  unfold reconcile parseIfPending reparse
  rw [if_pos failing.prepared.attached, failing.language]
  dsimp only
  rw [if_pos failing.parsePending_eq_true, attempt]
  dsimp only
  rw [count]
  rfl

theorem Failing.ledger_tried (failing : h.Failing l failed) : (h.tried l).Ledger := by
  obtain ⟨sound, revision, inside, jobs, vouched, answered⟩ := failing.prepared.ledger
  refine ⟨sound.beginReparse, revision, inside, jobs, fun r hr => ?_, answered⟩
  refine (vouched r hr).mono (Nat.le_refl _) (fun j hj => Or.inl hj) fun j hj _ => ?_
  exact absurd (failing.superseded ▸ hj) List.not_mem_nil

/-- After an attempt that failed the next one starts from scratch. -/
theorem Failing.tried (failing : h.Failing l failed) :
    (h.tried l).Failing { l with keeper := l.keeper.fail h.snapshot.revision } (failed + 1) where
  prepared := by
    obtain ⟨-, attached, revision, size, rules, queued, retriable, -⟩ := failing.prepared
    refine ⟨failing.ledger_tried, attached, revision, size, fun m hm => ?_, queued,
      ⟨retriable.1, fun m hm => ?_⟩, Or.inl ⟨failing.superseded, failing.due⟩⟩
    · cases hm
      exact rules l failing.language
    · cases hm
      exact Or.inr rfl
  due := failing.due
  superseded := failing.superseded
  language := rfl
  asks := by
    rw [TreeKeeper.asks_of_no_tree rfl]
    exact Option.some_ne_none _
  count := by
    rw [← failing.count]
    exact l.keeper.failureCount_fail h.snapshot.revision

/-- After the last attempt the text is given up. -/
theorem Failing.givenUp (failing : h.Failing l failed) : (h.tried l).degrade.GivenUp := by
  obtain ⟨-, attached, revision, size, rules, queued, -, -⟩ := failing.prepared
  have dropped := failing.ledger_tried.reset h.log.drain (h.tried l).language
  obtain ⟨notices, eq⟩ := announceUnclassified_eq
    { (h.tried l).clearWork with degraded := some h.snapshot.revision } h.snapshot.whole
  have eq' : (h.tried l).degrade = _ := eq
  rw [eq']
  refine ⟨dropped.of_sameWork ⟨rfl, rfl, rfl, rfl, rfl, rfl, rfl⟩, attached, revision,
    fun m hm => ?_, ⟨queued.1, fun _ => rfl, fun _ => rfl⟩, rfl, fun m hm => ?_, rfl, rfl, rfl, rfl⟩
  · cases hm
    exact rules l failing.language
  · cases hm
    rfl

/-! ### Results of superseded jobs -/

/-- A result is dropped where no job is live. -/
theorem finish_of_superseded (sound : h.scheduler.Sound) (none : h.scheduler.liveJobs = [])
    (id : JobId) (runs : List StyleRun) :
    ∃ scheduler, (h.finish id runs).2 = { h with scheduler } ∧ scheduler.liveJobs = [] := by
  have books := sameBooks_finish sound id runs
  have dropped : (h.finish id runs).1 = false := by
    obtain ⟨-, -, -, -, -, ⟨job, live, -⟩ | ⟨-, -, dropped⟩⟩ := finish_eq sound id runs
    · rw [none] at live
      cases live
    · exact dropped
  obtain ⟨scheduler, eq⟩ := finish_of_not_merged dropped
  rw [eq] at books
  refine ⟨scheduler, eq, List.eq_nil_iff_forall_not_mem.mpr fun j hj => ?_⟩
  rw [books.liveJobs] at hj
  have live := (Scheduler.mem_liveJobs_without.mp hj).1
  rw [none] at live
  cases live

/-- Where no job is live, nobody sees that results are collected. -/
theorem collectResults_of_superseded (ledger : h.Ledger) (none : h.scheduler.liveJobs = []) :
    h.collectResults.2.scheduler.liveJobs = [] ∧ h.collectResults.2.shown = h.shown := by
  suffices kept : h.collectResults.2.scheduler.Sound ∧
      h.collectResults.2.scheduler.liveJobs = [] ∧ h.collectResults.2.shown = h.shown from kept.2
  have step : ∀ x : Highlighter, x.scheduler.Sound ∧ x.scheduler.liveJobs = [] ∧
      x.shown = h.shown → ∀ id runs, (x.finish id runs).2.scheduler.Sound ∧
        (x.finish id runs).2.scheduler.liveJobs = [] ∧ (x.finish id runs).2.shown = h.shown := by
    rintro x ⟨sound, none, same⟩ id runs
    have sound' := (sameBooks_finish sound id runs).sound (sound.without id)
    obtain ⟨scheduler, eq, live⟩ := finish_of_superseded sound none id runs
    rw [eq] at sound' ⊢
    exact ⟨sound', live, same⟩
  exact collectResults_keeps ⟨ledger.sound, none, rfl⟩ (fun _ _ x kept => step x kept _ _)
    fun x _ rest _ kept => step { x with deferred := rest } kept _ _

/-- Collecting results does not touch the parse that is due. -/
theorem Failing.collectResults (failing : h.Failing l failed) :
    h.collectResults.2.Failing l failed ∧ h.collectResults.2.shown = h.shown := by
  obtain ⟨-, attached, revision, size, rules, queued, retriable, -⟩ := failing.prepared
  obtain ⟨ledger, queued', same⟩ := failing.prepared.ledger.collectResults queued
  obtain ⟨superseded, shown⟩ :=
    collectResults_of_superseded failing.prepared.ledger failing.superseded
  refine ⟨⟨⟨ledger, same.attached.trans attached, ?_, ?_, ?_, queued', ?_,
    Or.inl ⟨superseded, same.parseDue.trans failing.due⟩⟩, same.parseDue.trans failing.due,
    superseded, same.language.trans failing.language, ?_, ?_⟩, shown⟩
  · rw [same.log, same.snapshot]
    exact revision
  · rw [same.log, same.snapshot]
    exact size
  · rw [same.language, same.theme]
    exact rules
  · unfold Retriable
    rw [same.degraded, same.language, same.log]
    exact retriable
  · rw [same.log, same.snapshot]
    exact failing.asks
  · rw [same.snapshot]
    exact failing.count

/-! ### Texts that were given up -/

/-- Without a job on the books a result is unknown. -/
theorem finish_of_no_jobs (jobs : h.scheduler.inFlight = []) (id : JobId) (runs : List StyleRun) :
    h.finish id runs = (false, h) := by
  unfold finish Scheduler.complete
  rw [jobs]
  rfl

theorem GivenUp.of_queues (given : h.GivenUp) {worker : Option Worker} {deferred : List Request}
    (ledger : Ledger { h with worker, deferred }) (queued : Queued { h with worker, deferred }) :
    GivenUp { h with worker, deferred } :=
  { given with ledger, queued }

theorem GivenUp.collectResults (given : h.GivenUp) :
    h.collectResults.2.GivenUp ∧ h.collectResults.2.shown = h.shown := by
  refine collectResults_keeps (P := fun x => x.GivenUp ∧ x.shown = h.shown) ?_ ?_ ?_
  · exact ⟨given.of_queues given.ledger.withoutAnswers given.queued.withoutAnswers, rfl⟩
  · rintro a - x ⟨given', same⟩
    rw [finish_of_no_jobs given'.jobs]
    exact ⟨given', same⟩
  · rintro x r rest waiting ⟨given', same⟩
    rw [finish_of_no_jobs (h := { x with deferred := rest }) given'.jobs]
    refine ⟨given'.of_queues (given'.ledger.of_deferred waiting)
      ⟨given'.queued.1, fun alone => ?_, fun present => ?_⟩, same⟩
    · have queue := given'.queued.2.1 alone
      rw [waiting, given'.jobs] at queue
      cases queue
    · have queue := given'.queued.2.2 present
      rw [waiting] at queue
      cases queue

/-- A text that was given up is not parsed again, and there is nothing to hand out. -/
theorem GivenUp.reconcile (given : h.GivenUp) :
    (h.reconcile engine).GivenUp ∧ (h.reconcile engine).shown = h.shown := by
  have pending := given.parsePending_eq_false
  have passed : h.parseIfPending engine = (true, h) := by
    unfold parseIfPending
    rw [pending]
    cases h.language <;> rfl
  have settled : h.reconcile engine = { h with
      parseDue := false
      log := h.log.drain
      scheduler := h.scheduler.settlePhase } := by
    have idle : parsePending { h with parseDue := false, log := h.log.drain } = false := by
      simp [Highlighter.parsePending]
    unfold Highlighter.reconcile pump
    rw [if_pos given.attached, passed]
    dsimp only
    rw [idle, Scheduler.plan_of_clean given.dirty]
    rfl
  have ledger := given.ledger.of_sameBooks (Scheduler.sameBooks_settlePhase h.scheduler)
  rw [settled]
  refine ⟨{ given with
    ledger := ledger.of_sameWork ⟨rfl, rfl, rfl, rfl, rfl, rfl, rfl⟩
    queued := given.queued
    phase := ?_ }, rfl⟩
  simp [Scheduler.settlePhase, Scheduler.restingPhase, given.jobs, given.dirty, SpanSet.isEmpty,
    SpanSet.empty]

theorem GivenUp.poll (given : h.GivenUp) :
    (h.poll engine).2.GivenUp ∧ (h.poll engine).2.shown = h.shown := by
  obtain ⟨collected, same⟩ := given.collectResults
  obtain ⟨given', same'⟩ : (h.poll engine).2.GivenUp ∧
      (h.poll engine).2.shown = h.collectResults.2.shown := collected.reconcile
  exact ⟨given', same'.trans same⟩

/-! ### Attempt after attempt -/

theorem shown_announceUnclassified (h : Highlighter) (s : Span) :
    (h.announceUnclassified s).shown = (h.frame, h.listeners, h.index,
      h.outbox ++ if s.isEmpty then [] else h.listeners.notify [.unclassified s]) := by
  unfold announceUnclassified
  split
  · rw [List.append_nil]
    rfl
  · rfl

/-- What has become of `g` when so many attempts at its text have failed: either the parse is still
due and nothing is different to see, or the text is given up and that was announced. -/
def Attempted (g : Highlighter) (grammar : Grammar) (failed : Nat) (x : Highlighter) : Prop :=
  if failed < g.config.maxParseFailures then
    (∃ l, x.Failing l failed ∧ l.rules.grammar = grammar) ∧ x.shown = g.shown
  else
    x.GivenUp ∧ x.shown = (announceUnclassified { g with index := .empty } g.snapshot.whole).shown

/-- One more attempt fails. -/
theorem Failing.attempted {g : Highlighter} (failing : h.Failing l failed)
    (givesUp : GivesUp (engine.parser l.rules.grammar) h.snapshot) (same : h.shown = g.shown) :
    Attempted g l.rules.grammar (failed + 1) (h.reconcile engine) := by
  have parts := same
  simp only [shown, frame, Prod.mk.injEq] at parts
  obtain ⟨⟨config, snapshot⟩, listeners, index, outbox⟩ := parts
  unfold Attempted
  rw [failing.reconcile_eq givesUp, config]
  -- The count is compared after it was raised: the last attempt that is allowed gives the text up.
  by_cases more : failed + 1 < g.config.maxParseFailures
  · rw [if_pos more, if_neg (Nat.not_le.mpr more)]
    exact ⟨⟨_, failing.tried, rfl⟩, same⟩
  · rw [if_neg more, if_pos (Nat.not_lt.mp more)]
    refine ⟨failing.givenUp, ?_⟩
    unfold degrade
    rw [shown_announceUnclassified, shown_announceUnclassified]
    simp only [frame, clearWork, Highlighter.tried, config, snapshot, listeners, outbox]

/-- Each poll is one more attempt, until the text is given up. -/
theorem Attempted.poll {g : Highlighter} {grammar : Grammar}
    (attempted : Attempted g grammar failed x)
    (givesUp : GivesUp (engine.parser grammar) g.snapshot) :
    Attempted g grammar (failed + 1) (x.poll engine).2 := by
  unfold Attempted at attempted
  split at attempted
  · obtain ⟨⟨l, failing, rfl⟩, same⟩ := attempted
    obtain ⟨collected, still⟩ := failing.collectResults
    have snapshot : x.collectResults.2.snapshot = g.snapshot :=
      congrArg (fun t => t.1.2) (still.trans same)
    exact collected.attempted (snapshot ▸ givesUp) (still.trans same)
  · rename_i enough
    obtain ⟨given, same⟩ := attempted
    obtain ⟨given', still⟩ : (x.poll engine).2.GivenUp ∧ (x.poll engine).2.shown = x.shown :=
      given.poll
    unfold Attempted
    rw [if_neg fun more => enough (Nat.lt_of_succ_lt more)]
    exact ⟨given', still.trans same⟩

theorem Attempted.polls {g : Highlighter} {grammar : Grammar}
    (attempted : Attempted g grammar failed x) (givesUp : GivesUp (engine.parser grammar) g.snapshot)
    (n : Nat) :
    Attempted g grammar (failed + n) ((fun y : Highlighter => (y.poll engine).2)^[n] x) := by
  induction n generalizing x failed with
  | zero => exact attempted
  | succ n ih =>
      rw [Function.iterate_succ_apply, Nat.add_succ, ← Nat.succ_add]
      exact ih (attempted.poll givesUp)

/-- A change of a text with a language leads to a first attempt at the new text. -/
theorem Balanced.failing_takeEdits (balanced : h.Balanced) (attached : h.attached = true)
    (language : h.language = some l) {snapshot : Snapshot} {edits : List Edit}
    (linedUp : (h.takeEdits edits).1 = true) (edited : edits ≠ [])
    (agrees : (h.takeEdits edits).2.agreesWith snapshot = true) :
    Failing { (h.takeEdits edits).2 with snapshot, parseDue := true } l 0 := by
  have prepared := balanced.prepared_takeEdits attached linedUp agrees
  have superseded := (balanced.ledger.takeEdits edits).2 linedUp edited
  have later := revision_lt_takeEdits linedUp edited
  have unfailed := balanced.unfailed.2 l language
  obtain ⟨t, tree, revision, -⟩ := (balanced.parsed attached).2 l language
  simp only [agreesWith, Bool.and_eq_true, beq_iff_eq] at agrees
  obtain ⟨log, scheduler, index, eq, -⟩ := takeEdits_eq h edits
  rw [eq] at prepared superseded later agrees ⊢
  refine ⟨prepared, rfl, superseded, language, ?_, TreeKeeper.failureCount_of_unfailed unfailed _⟩
  -- The tree is of an earlier revision, so the parser is asked.
  have outdated : TreeKeeper.isCurrent t log.pending snapshot = false := by
    have apart : t.revision ≠ snapshot.revision := by
      rw [revision, ← balanced.revision, ← agrees.1]
      exact later.ne
    simp [TreeKeeper.isCurrent, apart]
  unfold TreeKeeper.asks
  rw [tree]
  dsimp only
  rw [outdated, if_neg (by simp)]
  split <;> exact Option.some_ne_none _

theorem Attempted.readings {g : Highlighter} {grammar : Grammar}
    (attempted : Attempted g grammar failed x) :
    (failed < g.config.maxParseFailures →
      x.phase = .reparsing ∧ x.isIdle = false ∧ x.isDegraded = false ∧
        x.index = g.index ∧ x.outbox = g.outbox) ∧
      (g.config.maxParseFailures ≤ failed →
        x.phase = .idle ∧ x.isIdle = true ∧ x.isDegraded = true ∧
          (∀ o, x.styleAt o = .unclassified) ∧
          x.outbox = g.outbox ++ if g.snapshot.whole.isEmpty then []
            else g.listeners.notify [.unclassified g.snapshot.whole]) := by
  unfold Attempted at attempted
  constructor
  · intro more
    rw [if_pos more] at attempted
    obtain ⟨⟨l, failing, -⟩, same⟩ := attempted
    have due := failing.parsePending_eq_true
    refine ⟨?_, ?_, ?_, congrArg (fun t => t.2.2.1) same, congrArg (fun t => t.2.2.2) same⟩
    · rw [phase, due]
      rfl
    · rw [isIdle, due]
      rfl
    · exact failing.prepared.retriable.isDegraded_eq_false failing.prepared.revision
  · intro enough
    rw [if_neg (Nat.not_lt.mpr enough), shown_announceUnclassified] at attempted
    obtain ⟨given, same⟩ := attempted
    refine ⟨?_, given.isIdle_eq_true, given.isDegraded_eq_true, given.styleAt_eq,
      congrArg (fun t => t.2.2.2) same⟩
    rw [Highlighter.phase, given.parsePending_eq_false]
    exact given.phase

/-- A text that the parsing library gives up on costs as many attempts as the configuration allows,
the first when the text is changed and one with each poll. Until the last of them has failed the
parse is due and nothing but the change is to be seen. Then the text is given up: it is unclassified
and idle, the listeners are told so once, and the polls that follow change nothing. -/
theorem given_up_after_failures (balanced : h.Balanced) (attached : h.attached = true)
    (language : h.language = some l) {snapshot : Snapshot} {edits : List Edit}
    (linedUp : (h.takeEdits edits).1 = true) (edited : edits ≠ [])
    (agrees : (h.takeEdits edits).2.agreesWith snapshot = true)
    (givesUp : GivesUp (engine.parser l.rules.grammar) snapshot) (n : Nat) :
    let changed := { (h.collectResults.2.takeEdits edits).2 with snapshot }
    let x := (fun y : Highlighter => (y.poll engine).2)^[n] (h.textDidChange engine snapshot edits)
    (n + 1 < h.config.maxParseFailures →
      x.phase = .reparsing ∧ x.isIdle = false ∧ x.isDegraded = false ∧
        x.index = changed.index ∧ x.outbox = changed.outbox) ∧
      (h.config.maxParseFailures ≤ n + 1 →
        x.phase = .idle ∧ x.isIdle = true ∧ x.isDegraded = true ∧
          (∀ o, x.styleAt o = .unclassified) ∧
          x.outbox = changed.outbox ++ if snapshot.whole.isEmpty then []
            else changed.listeners.notify [.unclassified snapshot.whole]) := by
  intro changed x
  obtain ⟨collected, same⟩ := balanced.collectResults
  obtain ⟨lined, log⟩ := takeEdits_congr same.log edits
  have linedUp' : (h.collectResults.2.takeEdits edits).1 = true := lined.trans linedUp
  have agrees' : (h.collectResults.2.takeEdits edits).2.agreesWith snapshot = true := by
    rw [agreesWith, log]
    exact agrees
  have failing := collected.failing_takeEdits (same.attached.trans attached)
    (same.language.trans language) linedUp' edited agrees'
  have config : changed.config = h.config := by
    obtain ⟨log, scheduler, index, eq, -⟩ := takeEdits_eq h.collectResults.2 edits
    exact (congrArg Highlighter.config eq).trans same.config
  have first : Attempted { changed with parseDue := true } l.rules.grammar 1
      (h.textDidChange engine snapshot edits) := by
    rw [textDidChange_of_inSync failing.prepared.attached linedUp' agrees']
    exact failing.attempted givesUp rfl
  have readings := (first.polls givesUp n).readings
  rw [Nat.add_comm 1 n] at readings
  rw [← config]
  exact readings

/-- Two attempts are allowed and fail. The text is given up until it is changed. -/
example :
    let answering : ParsingEngine := fun _ _ _ => ⟨[], []⟩
    let failing : FallibleEngine := ⟨fun _ _ _ => none⟩
    let before := (make ⟨0, .ofString "ab"⟩ .empty ⟨⟨0, 0, 64, 1⟩, 2, false⟩).run answering
      [.setLanguage (some ⟨"bare", 14, none, []⟩), .attach]
    let changed := before.textDidChange failing ⟨1, .ofString "abc"⟩ [⟨1, ⟨2, 2⟩, .ofString "c"⟩]
    let given := (changed.poll failing).2
    let next := given.textDidChange answering ⟨2, .ofString "c"⟩ [⟨2, ⟨0, 2⟩, .empty⟩]
    changed.phase = .reparsing ∧ changed.isDegraded = false ∧ given.isDegraded = true ∧
      given.isIdle = true ∧ (given.poll answering).2.isDegraded = true ∧
      next.isDegraded = false ∧ next.lastParseMode? = some .fullReparse := by
  decide +kernel

/-! ### Recovery -/

/-- Without a tree the text is parsed from scratch. -/
theorem tree?_reconcile_of_treeless (attached : h.attached = true) (language : h.language = some l)
    (treeless : l.keeper.tree = none) (due : h.parsePending = true) :
    (h.reconcile answering).tree? =
      some ⟨h.snapshot, (answering l.rules.grammar none h.snapshot).captures⟩ := by
  have afresh : l.keeper.outcome (answering l.rules.grammar) h.log.pending h.snapshot =
      l.keeper.parseAfresh (answering l.rules.grammar) h.snapshot :=
    TreeKeeper.outcome_of_no_tree treeless
  rw [reconcile_eq attached, (sameSetting_pump _).tree?]
  unfold upToDate parsed
  rw [language]
  dsimp only
  rw [if_pos due]
  exact congrArg (fun outcome => some outcome.tree) afresh

theorem Failing.treeless (failing : h.Failing l (failed + 1)) : l.keeper.tree = none := by
  refine (failing.prepared.retriable.2 l failing.language).resolve_left fun unfailed => ?_
  have count := failing.count
  rw [TreeKeeper.failureCount_of_unfailed unfailed] at count
  cases count

/-- As soon as an attempt is answered, all is as if none had failed, with a tree from scratch. -/
theorem Failing.recovers (failing : h.Failing l (failed + 1)) :
    let x := (h.poll answering).2
    x.Balanced ∧ x.isDegraded = false ∧
      x.tree? = some ⟨h.snapshot, (answering l.rules.grammar none h.snapshot).captures⟩ := by
  intro x
  obtain ⟨collected, same⟩ := failing.collectResults
  have snapshot : h.collectResults.2.snapshot = h.snapshot := congrArg (fun t => t.1.2) same
  have balanced : x.Balanced := collected.prepared.reconcile
  refine ⟨balanced, balanced.unfailed.retriable.isDegraded_eq_false balanced.revision, ?_⟩
  rw [← snapshot]
  exact tree?_reconcile_of_treeless collected.prepared.attached collected.language
    collected.treeless collected.parsePending_eq_true

/-- A text that was given up is left behind with the next change that the parsing library answers
to. -/
theorem GivenUp.recovers (given : h.GivenUp) (language : h.language = some l) {snapshot : Snapshot}
    {edits : List Edit} (linedUp : (h.takeEdits edits).1 = true) (edited : edits ≠ [])
    (agrees : (h.takeEdits edits).2.agreesWith snapshot = true) :
    let x := h.textDidChange answering snapshot edits
    x.Balanced ∧ x.isDegraded = false ∧
      x.tree? = some ⟨snapshot, (answering l.rules.grammar none snapshot).captures⟩ := by
  intro x
  obtain ⟨collected, -⟩ := given.collectResults
  obtain ⟨-, -, same⟩ := given.ledger.collectResults given.queued
  obtain ⟨lined, log⟩ := takeEdits_congr same.log edits
  have linedUp' : (h.collectResults.2.takeEdits edits).1 = true := lined.trans linedUp
  have agrees' : (h.collectResults.2.takeEdits edits).2.agreesWith snapshot = true := by
    rw [agreesWith, log]
    exact agrees
  have stale : ∀ r, h.collectResults.2.degraded = some r → r ≤ h.collectResults.2.log.revision := by
    intro r degraded
    rw [collected.revision]
    exact (Option.some.inj (degraded.symm.trans collected.degraded)).le
  have prepared := collected.ledger.prepared_takeEdits collected.attached collected.rules
    collected.queued stale (fun l hl => Or.inr (collected.treeless l hl)) linedUp' edited agrees'
  have change : x = Highlighter.reconcile answering
      { (h.collectResults.2.takeEdits edits).2 with snapshot, parseDue := true } :=
    textDidChange_of_inSync prepared.attached linedUp' agrees'
  have balanced : x.Balanced := by
    rw [change]
    exact prepared.reconcile
  refine ⟨balanced, balanced.unfailed.retriable.isDegraded_eq_false balanced.revision, ?_⟩
  obtain ⟨log', scheduler, index, eq, -⟩ := takeEdits_eq h.collectResults.2 edits
  rw [change]
  rw [eq] at prepared ⊢
  have language' : h.collectResults.2.language = some l := same.language.trans language
  exact tree?_reconcile_of_treeless prepared.attached language'
    (collected.treeless l language') (prepared.parsePending_eq_true rfl language')

end Highlighter

end Highlighting
