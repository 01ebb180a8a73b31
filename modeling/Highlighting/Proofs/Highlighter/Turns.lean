import Highlighting.Proofs.Highlighter.Books

/-!
What a call does, said once.

`Turn` is the list of all that a call can do to a highlighter between whose calls the books agree:
nothing to text and jobs, release everything, start over with the whole document queued, go on with
the tree of before, or follow a batch of edits. In each case the state from which work is handed out
is given, with the facts that distinguish the case. That the books agree after every run is a first
consequence.
-/

namespace Highlighting

namespace Highlighter

variable {h h' : Highlighter} {engine : ParsingEngine}

/-- The text is the same, and so is the tree, though the rules may be others. -/
structure SameTree (h' h : Highlighter) : Prop where
  snapshot : h'.snapshot = h.snapshot
  language : ∀ l', h'.language = some l' → ∃ l, h.language = some l ∧
    l'.rules.grammar = l.rules.grammar ∧ l'.keeper.tree = l.keeper.tree

/-- Index and jobs are the same, and all that waited waits. -/
structure SameJobs (h' h : Highlighter) : Prop where
  index : h'.index = h.index
  inFlight : h'.scheduler.inFlight = h.scheduler.inFlight
  live : h'.scheduler.liveJobs = h.scheduler.liveJobs
  lastJob : h'.scheduler.lastJob = h.scheduler.lastJob
  dirty : ∀ o ∈ h.scheduler.dirty, o ∈ h'.scheduler.dirty

/-- No job is live and the whole document waits, either without a tree or with the one of before. -/
structure Restarted (h' h : Highlighter) : Prop where
  superseded : h'.scheduler.liveJobs = []
  drained : h'.log.pending = []
  queued : ∀ o < h'.snapshot.size, o ∈ h'.scheduler.dirty
  jobs : ∀ j ∈ h'.scheduler.inFlight, j ∈ h.scheduler.inFlight
  lastJob : h'.scheduler.lastJob = h.scheduler.lastJob
  tree : h'.tree? = none ∨ SameTree h' h

/-- A batch of edits was followed up to the text that they lead to. -/
structure Followed (snapshot : Snapshot) (edits : List Edit) (h' h : Highlighter) : Prop where
  linedUp : (h.takeEdits edits).1 = true
  eq : h' = { (h.takeEdits edits).2 with snapshot, parseDue := true }

/-- What a call can do, from the state in which the results that were ready are merged. -/
inductive Turn (engine : ParsingEngine) (h : Highlighter) :
    HighlighterCall → Bool → Highlighter → Prop where
  | quiet {c : HighlighterCall} {h' : Highlighter} :
      h'.Balanced → SameSetting h' h → SameJobs h' h → Turn engine h c false h'
  | released {c : HighlighterCall} {b : Bool} {h' : Highlighter} :
      h'.Balanced → h'.attached = false → h'.scheduler.lastJob = h.scheduler.lastJob →
      Turn engine h c b h'
  | restarted {c : HighlighterCall} {b : Bool} {x : Highlighter} :
      x.Prepared → Restarted x h → Turn engine h c b (x.reconcile engine)
  | resumed {c : HighlighterCall} {x : Highlighter} :
      x.Prepared → SameSetting x h → SameJobs x h → Turn engine h c false (x.reconcile engine)
  | pumped {c : HighlighterCall} {x : Highlighter} :
      x.Balanced → x.attached = true → SameSetting x h → SameJobs x h → Turn engine h c false x.pump
  | followed {snapshot : Snapshot} {edits : List Edit} {x : Highlighter} :
      x.Prepared → Followed snapshot edits x h →
      Turn engine h (.textDidChange snapshot edits) (!edits.isEmpty) (x.reconcile engine)

theorem Turn.balanced {c : HighlighterCall} {b : Bool} (turn : Turn engine h c b h') :
    h'.Balanced := by
  cases turn with
  | quiet balanced => exact balanced
  | released balanced => exact balanced
  | restarted prepared => exact prepared.reconcile
  | resumed prepared => exact prepared.reconcile
  | pumped balanced attached => exact balanced.pump attached
  | followed prepared => exact prepared.reconcile

/-! ### Starting over -/

/-- What starting over needs: all that holds between calls, save that the text may not have been
parsed. -/
structure Startable (h : Highlighter) : Prop where
  ledger : h.Ledger
  revision : h.log.revision = h.snapshot.revision
  size : h.log.size = h.snapshot.size
  drained : h.log.pending = []
  rules : ∀ l, h.language = some l → l.rules = .make l.rules.grammar h.theme
  queued : h.Queued
  unfailed : h.Unfailed
  released : h.attached = false → h.Released

/-- The whole document is queued, so a parse may come first. -/
theorem Startable.prepared (start : h.Startable) (attached : h.attached = true) :
    Prepared { h with parseDue := true, scheduler := h.scheduler.invalidateAll h.snapshot.size } := by
  obtain ⟨ledger, revision, size, -, rules, queued, unfailed, -⟩ := start
  have none := Scheduler.liveJobs_invalidateAll ledger.sound h.snapshot.size
  refine ⟨?_, attached, revision, size, rules, queued, unfailed.retriable, Or.inl ⟨none, rfl⟩⟩
  exact (ledger.invalidateAll h.snapshot.size h.language).of_sameWork
    ⟨rfl, rfl, rfl, rfl, rfl, rfl, rfl⟩

/-- Starting over queues the whole document, or leaves a detached highlighter as it is. -/
theorem Startable.turn {g : Highlighter} {c : HighlighterCall} {b : Bool} (start : h.Startable)
    (jobs : ∀ j ∈ h.scheduler.inFlight, j ∈ g.scheduler.inFlight)
    (lastJob : h.scheduler.lastJob = g.scheduler.lastJob)
    (tree : h.tree? = none ∨ SameTree h g) : Turn engine g c b (h.startOver engine) := by
  by_cases attached : h.attached = true
  · rw [startOver_of_attached attached]
    have none := Scheduler.liveJobs_invalidateAll start.ledger.sound h.snapshot.size
    refine .restarted (start.prepared attached) ⟨none, start.drained,
      fun o => Scheduler.mem_dirty_invalidateAll.mpr, jobs, lastJob, ?_⟩
    exact tree.imp_right fun same => ⟨same.snapshot, same.language⟩
  · obtain ⟨ledger, revision, size, drained, rules, queued, unfailed, released⟩ := start
    rw [startOver_of_detached (Bool.eq_false_iff.mpr attached)]
    refine .released ⟨ledger.of_sameWork ⟨rfl, rfl, rfl, rfl, rfl, rfl, rfl⟩, revision, size,
      drained, rules, queued, unfailed, fun attached' => absurd attached' attached, fun detached => ?_⟩
      (Bool.eq_false_iff.mpr attached) lastJob
    obtain ⟨index, tree, jobs, deferred, worker, degraded⟩ := released detached
    exact ⟨index, tree, jobs, deferred, worker, degraded⟩

/-! ### The calls -/

/-- Between calls the tree is that of the text. -/
theorem Balanced.prepared (balanced : h.Balanced) (attached : h.attached = true) :
    h.Prepared := by
  obtain ⟨ledger, revision, size, drained, rules, queued, unfailed, parsed, -⟩ := balanced
  exact ⟨ledger, attached, revision, size, rules, queued, unfailed.retriable,
    Or.inr ⟨drained, (parsed attached).2⟩⟩

theorem sameSetting_refl (h : Highlighter) : SameSetting h h :=
  ⟨rfl, rfl, rfl, rfl, rfl, rfl, rfl, rfl⟩

theorem sameJobs_refl (h : Highlighter) : SameJobs h h :=
  ⟨rfl, rfl, rfl, rfl, fun _ mem => mem⟩

/-- A call that leaves a detached highlighter as it is. -/
theorem Balanced.turn_detached {c : HighlighterCall} {b : Bool} (balanced : h.Balanced)
    (detached : h.attached = false) : Turn engine h c b h :=
  .released balanced detached rfl

theorem Balanced.turn_listeners {c : HighlighterCall} (balanced : h.Balanced)
    (listeners : Listeners) (outbox : List Notice) :
    Turn engine h c false { h with listeners, outbox } := by
  obtain ⟨ledger, revision, size, drained, rules, queued, unfailed, parsed, released⟩ := balanced
  refine .quiet ⟨ledger.of_sameWork ⟨rfl, rfl, rfl, rfl, rfl, rfl, rfl⟩, revision, size, drained,
    rules, queued, unfailed, parsed, fun detached => ?_⟩ ⟨rfl, rfl, rfl, rfl, rfl, rfl, rfl, rfl⟩
    ⟨rfl, rfl, rfl, rfl, fun _ mem => mem⟩
  obtain ⟨index, tree, jobs, deferred, worker, degraded⟩ := released detached
  exact ⟨index, tree, jobs, deferred, worker, degraded⟩

/-- While nothing is held, highlighting may start with an idle worker or without one. -/
theorem Balanced.startable (balanced : h.Balanced) (detached : h.attached = false)
    {worker : Option Worker} (idle : ∀ w, worker = some w → w = .idle)
    (off : h.config.background = false → worker = none) :
    Startable { h with attached := true, worker } := by
  obtain ⟨ledger, revision, size, drained, rules, queued, unfailed, -, released⟩ := balanced
  have free := released detached
  have held : Ledger { h with worker, deferred := h.deferred } := by
    refine ledger.of_fewer_requests (fun r hr => ?_) fun w hw a ha => ?_
    · have none : outstanding { h with worker, deferred := h.deferred } = [] := by
        unfold outstanding
        dsimp only
        rw [free.deferred]
        cases worker with
        | none => rfl
        | some w =>
            rw [idle w rfl]
            rfl
      rw [none] at hr
      cases hr
    · rw [idle w hw] at ha
      cases ha
  exact ⟨held.of_sameWork ⟨rfl, rfl, rfl, rfl, rfl, rfl, rfl⟩, revision, size, drained, rules,
    ⟨off, fun _ => queued.2.1 free.worker, fun _ => free.deferred⟩, unfailed, nofun⟩

theorem Balanced.turn_attach (balanced : h.Balanced) :
    Turn engine h .attach false (h.attach engine) := by
  rw [attach_eq]
  split
  · exact .quiet balanced (sameSetting_refl h) (sameJobs_refl h)
  · rename_i detached
    rw [Bool.not_eq_true] at detached
    have tree := (balanced.released detached).tree
    refine Startable.turn (balanced.startable detached (fun w hw => ?_) fun off => ?_)
      (fun _ hj => hj) rfl (Or.inl tree)
    · split at hw
      · exact (Option.some.inj hw).symm
      · cases hw
    · rw [off]
      rfl

theorem tree?_discardTree (h : Highlighter) : h.discardTree.tree? = none := by
  unfold tree? discardTree
  cases h.language with
  | none => rfl
  | some l => rfl

/-- What is done to the language leaves the failures uncounted, if there are none. -/
theorem failures_map {language : Option Language} {f : Language → Language}
    (unfailed : ∀ l, language = some l → l.keeper.failures = none)
    (same : ∀ l, (f l).keeper.failures = l.keeper.failures) :
    ∀ l, language.map f = some l → l.keeper.failures = none := by
  intro l hl
  obtain ⟨l', hl', rfl⟩ := Option.map_eq_some_iff.mp hl
  exact (same l').trans (unfailed l' hl')

theorem rules_discardTree
    (rules : ∀ l, h.language = some l → l.rules = .make l.rules.grammar h.theme) :
    ∀ l, h.discardTree.language = some l → l.rules = .make l.rules.grammar h.theme := by
  intro l hl
  obtain ⟨l', hl', rfl⟩ := Option.map_eq_some_iff.mp hl
  exact rules l' hl'

theorem Balanced.turn_detach (balanced : h.Balanced) :
    Turn engine h .detach true h.detach := by
  unfold detach
  by_cases attached : h.attached = true
  · rw [if_pos attached]
    obtain ⟨ledger, revision, size, drained, rules, queued, unfailed, -, -⟩ := balanced
    have stopped : Ledger { h with worker := none, deferred := h.deferred } :=
      ledger.of_fewer_requests (fun r hr => List.mem_append_left _
        ((List.mem_append.mp hr).resolve_right List.not_mem_nil)) nofun
    refine .released ⟨?_, revision, size, rfl, rules_discardTree rules,
      ⟨fun _ => rfl, fun _ => rfl, fun _ => rfl⟩,
      ⟨nofun, failures_map unfailed.2 fun _ => rfl⟩, nofun,
      fun _ => ⟨rfl, tree?_discardTree _, rfl, rfl, rfl, rfl⟩⟩ rfl rfl
    exact (stopped.reset h.log.drain h.discardTree.language).of_sameWork
      ⟨rfl, rfl, rfl, rfl, rfl, rfl, rfl⟩
  · rw [if_neg attached]
    exact balanced.turn_detached (Bool.eq_false_iff.mpr attached)

theorem Balanced.turn_setLanguage {c : HighlighterCall} (balanced : h.Balanced)
    (source : Option Grammar) : Turn engine h c true (h.setLanguage engine source).2 := by
  obtain ⟨ledger, revision, size, -, rules, queued, unfailed, -, released⟩ := balanced
  obtain ⟨language, notices, eq, fresh⟩ := setLanguage_eq engine h source
  have tree : tree? { h.clearWork with language, outbox := h.outbox ++ notices } = none := by
    unfold tree?
    dsimp only
    cases language with
    | none => rfl
    | some l => exact congrArg TreeKeeper.tree (fresh l rfl).2
  rw [eq]
  refine Startable.turn ⟨?_, revision, size, rfl, fun l hl => (fresh l hl).1,
    ⟨queued.1, fun _ => rfl, fun _ => rfl⟩,
    ⟨nofun, fun l hl => congrArg TreeKeeper.failures (fresh l hl).2⟩,
    fun detached => ⟨rfl, tree, rfl, rfl, (released detached).worker, rfl⟩⟩
    (fun _ hj => absurd hj List.not_mem_nil) rfl (Or.inl tree)
  exact (ledger.reset h.log.drain language).of_sameWork ⟨rfl, rfl, rfl, rfl, rfl, rfl, rfl⟩

theorem Balanced.turn_setTheme (balanced : h.Balanced) (theme : Theme) :
    Turn engine h (.setTheme theme) true (h.setTheme engine theme) := by
  obtain ⟨ledger, revision, size, drained, -, queued, unfailed, parsed, released⟩ := balanced
  have rules : ∀ l, (h.language.map fun l : Language =>
      { l with rules := .make l.rules.grammar theme }) = some l →
      l.rules = .make l.rules.grammar theme := by
    intro l hl
    obtain ⟨l', -, rfl⟩ := Option.map_eq_some_iff.mp hl
    rfl
  have failures : ∀ l, (h.language.map fun l : Language =>
      { l with rules := .make l.rules.grammar theme }) = some l → l.keeper.failures = none :=
    failures_map unfailed.2 fun _ => rfl
  unfold setTheme
  by_cases attached : h.attached = true
  · -- Attached, the tree is kept and the whole text is queued again, else only the rules change.
    rw [requeue_of_attached (h := h.withTheme theme) attached]
    have none := Scheduler.liveJobs_invalidateAll ledger.sound h.snapshot.size
    refine .restarted ⟨(ledger.invalidateAll _ _).of_sameWork ⟨rfl, rfl, rfl, rfl, rfl, rfl, rfl⟩,
      attached, revision, size, rules, queued,
      ⟨unfailed.1, fun l hl => Or.inl (failures l hl)⟩,
      Or.inr ⟨drained, fun l hl => ?_⟩⟩
      ⟨none, drained, fun o => Scheduler.mem_dirty_invalidateAll.mpr, fun _ hj => hj, rfl,
        Or.inr ⟨rfl, fun l hl => ?_⟩⟩
    · obtain ⟨l', hl', rfl⟩ := Option.map_eq_some_iff.mp hl
      exact (parsed attached).2 l' hl'
    · obtain ⟨l', hl', rfl⟩ := Option.map_eq_some_iff.mp hl
      exact ⟨l', hl', rfl, rfl⟩
  · rw [Bool.not_eq_true] at attached
    rw [requeue_of_detached (h := h.withTheme theme) attached,
      reconcile_of_detached (h := h.withTheme theme) attached]
    obtain ⟨index, tree, jobs, deferred, worker, degraded⟩ := released attached
    refine .released ⟨(ledger.of_released (released attached) _).of_sameWork
      ⟨rfl, rfl, rfl, rfl, rfl, rfl, rfl⟩, revision, size, drained, rules, queued,
      ⟨unfailed.1, failures⟩,
      fun attached' => absurd (attached.symm.trans attached') (by decide),
      fun _ => ⟨index, ?_, jobs, deferred, worker, degraded⟩⟩ attached rfl
    rw [← tree]
    unfold withTheme tree?
    dsimp only
    cases h.language with
    | none => rfl
    | some l => rfl

theorem Balanced.turn_setVisible (balanced : h.Balanced) (visible : Option Span) :
    Turn engine h (.setVisible visible) false (h.setVisible visible) := by
  have named : (h.withVisible visible).Balanced := by
    obtain ⟨ledger, revision, size, drained, rules, queued, unfailed, parsed, released⟩ := balanced
    refine ⟨ledger.of_sameBooks (Scheduler.sameBooks_setVisible _ _), revision, size, drained,
      rules, queued, unfailed, parsed, fun detached => ?_⟩
    obtain ⟨index, tree, jobs, deferred, worker, degraded⟩ := released detached
    exact ⟨index, tree, jobs, deferred, worker, degraded⟩
  unfold setVisible
  dsimp only
  by_cases attached : (h.withVisible visible).attached = true
  · rw [if_pos attached]
    exact .pumped named attached ⟨rfl, rfl, rfl, rfl, rfl, rfl, rfl, rfl⟩
      ⟨rfl, rfl, rfl, rfl, fun _ mem => mem⟩
  · rw [if_neg attached]
    exact .released named (Bool.eq_false_iff.mpr attached) rfl

theorem Balanced.turn_invalidate (balanced : h.Balanced) (span : Option Span) :
    Turn engine h (.invalidate span) span.isNone (h.invalidate engine span) := by
  unfold invalidate
  by_cases attached : h.attached = true
  · rw [requeue_of_attached attached]
    obtain ⟨ledger, -, revision, size, rules, queued, retriable, ready⟩ := balanced.prepared attached
    have drained := balanced.drained
    have parsed := (balanced.parsed attached).2
    cases span with
    | none =>
        have none := Scheduler.liveJobs_invalidateAll ledger.sound h.snapshot.size
        exact .restarted ⟨ledger.invalidateAll _ h.language, attached, revision, size, rules,
          queued, retriable, Or.inr ⟨drained, parsed⟩⟩
          ⟨none, drained, fun o => Scheduler.mem_dirty_invalidateAll.mpr, fun _ hj => hj, rfl,
            Or.inr ⟨rfl, fun l hl => ⟨l, hl, rfl, rfl⟩⟩⟩
    | some s =>
        refine .resumed ⟨ledger.request _, attached, revision, size, rules, queued, retriable,
          Or.inr ⟨drained, parsed⟩⟩ ⟨rfl, rfl, rfl, rfl, rfl, rfl, rfl, rfl⟩
          ⟨rfl, rfl, rfl, rfl, fun o mem => Scheduler.mem_dirty_request.mpr (Or.inl mem)⟩
  · rw [Bool.not_eq_true] at attached
    rw [requeue_of_detached attached, reconcile_of_detached attached]
    exact balanced.turn_detached attached

theorem Balanced.turn_poll (balanced : h.Balanced) :
    Turn engine h.collectResults.2 .poll false (h.poll engine).2 := by
  obtain ⟨collected, -⟩ := balanced.collectResults
  change Turn engine _ _ _ (h.collectResults.2.reconcile engine)
  by_cases attached : h.collectResults.2.attached = true
  · exact .resumed (collected.prepared attached) (sameSetting_refl _) (sameJobs_refl _)
  · rw [Bool.not_eq_true] at attached
    rw [reconcile_of_detached attached]
    exact collected.turn_detached attached

theorem Balanced.turn_workerStep (balanced : h.Balanced) :
    Turn engine h .workerStep false h.workerStep := by
  obtain ⟨ledger, revision, size, drained, rules, queued, unfailed, parsed, released⟩ := balanced
  have stepped : Ledger { h with worker := h.worker.map Worker.step, deferred := h.deferred } := by
    refine ledger.of_fewer_requests (fun r hr => ?_) fun w hw a ha => ?_
    · unfold outstanding at hr ⊢
      refine (List.mem_append.mp hr).elim (List.mem_append_left _) fun sent =>
        List.mem_append_right _ ?_
      -- A request that is answered stays outstanding: it only moves from one queue to the other.
      cases worker : h.worker with
      | none =>
          rw [worker] at sent
          exact sent
      | some w =>
          rw [worker] at sent
          dsimp only [Option.map_some] at sent ⊢
          unfold Worker.step at sent
          cases requests : w.requests with
          | nil =>
              rw [requests] at sent
              rwa [requests] at sent
          | cons first rest =>
              rw [requests] at sent
              simpa [Request.answer] using sent
    · obtain ⟨v, hv, rfl⟩ := Option.map_eq_some_iff.mp hw
      unfold Worker.step at ha
      split at ha
      · exact ledger.answered v hv a ha
      · rcases List.mem_append.mp ha with old | new
        · exact ledger.answered v hv a old
        · rw [List.mem_singleton.mp new]
          rfl
  refine .quiet ⟨stepped, revision, size, drained, rules,
    ⟨fun off => ?_, fun alone => ?_, fun present => ?_⟩, unfailed,
    parsed, fun detached => ?_⟩ ⟨rfl, rfl, rfl, rfl, rfl, rfl, rfl, rfl⟩
    ⟨rfl, rfl, rfl, rfl, fun _ mem => mem⟩
  · unfold workerStep
    rw [queued.1 off]
    rfl
  · exact queued.2.1 (Option.map_eq_none_iff.mp alone)
  · exact queued.2.2 fun alone => present (Option.map_eq_none_iff.mpr alone)
  · obtain ⟨index, tree, jobs, deferred, worker, degraded⟩ := released detached
    refine ⟨index, tree, jobs, deferred, ?_, degraded⟩
    unfold workerStep
    rw [worker]
    rfl

theorem revision_le_takeEdits (h : Highlighter) (edits : List Edit) :
    h.log.revision ≤ (h.takeEdits edits).2.log.revision := by
  refine takeEdits_keeps (P := fun x => h.log.revision ≤ x.log.revision)
    (fun x e x' taken later => ?_) (Nat.le_refl _)
  obtain ⟨-, -, rfl⟩ := takeEdit?_eq_some taken
  exact Nat.le_succ_of_le later

/-- A batch of edits that lines up leads to a later revision. -/
theorem revision_lt_takeEdits {edits : List Edit} (linedUp : (h.takeEdits edits).1 = true)
    (edited : edits ≠ []) : h.log.revision < (h.takeEdits edits).2.log.revision := by
  cases edits with
  | nil => exact absurd rfl edited
  | cons e rest =>
      obtain ⟨h', taken, eq⟩ := takeEdits_cons linedUp
      have later := revision_le_takeEdits h' rest
      obtain ⟨-, -, rfl⟩ := takeEdit?_eq_some taken
      rw [eq]
      exact later

/-- A batch of edits that leads to the new text leaves all that a parse needs, even where the text of
before was given up. -/
theorem Ledger.prepared_takeEdits (ledger : h.Ledger) (attached : h.attached = true)
    (rules : ∀ l, h.language = some l → l.rules = .make l.rules.grammar h.theme)
    (queued : h.Queued) (given : ∀ r, h.degraded = some r → r ≤ h.log.revision)
    (failures : ∀ l, h.language = some l → l.keeper.failures = none ∨ l.keeper.tree = none)
    {snapshot : Snapshot} {edits : List Edit} (linedUp : (h.takeEdits edits).1 = true)
    (edited : edits ≠ []) (agrees : (h.takeEdits edits).2.agreesWith snapshot = true) :
    Prepared { (h.takeEdits edits).2 with snapshot, parseDue := true } := by
  obtain ⟨ledger, live⟩ := ledger.takeEdits edits
  have stale : ∀ r, h.degraded = some r → r < (h.takeEdits edits).2.log.revision :=
    fun r degraded => (given r degraded).trans_lt (revision_lt_takeEdits linedUp edited)
  simp only [agreesWith, Bool.and_eq_true, beq_iff_eq] at agrees
  have superseded := live linedUp edited
  obtain ⟨log, scheduler, index, eq, inFlight, -⟩ := takeEdits_eq h edits
  rw [eq] at ledger stale agrees superseded ⊢
  exact ⟨ledger.of_sameWork ⟨rfl, rfl, rfl, rfl, rfl, rfl, rfl⟩, attached, agrees.1, agrees.2, rules,
    ⟨queued.1, fun alone => (queued.2.1 alone).trans inFlight.symm, queued.2.2⟩, ⟨stale, failures⟩,
    Or.inl ⟨superseded, rfl⟩⟩

/-- A batch that leads to the new text leaves all that a parse needs. -/
theorem Balanced.prepared_takeEdits (balanced : h.Balanced) (attached : h.attached = true)
    {snapshot : Snapshot} {edits : List Edit} (linedUp : (h.takeEdits edits).1 = true)
    (agrees : (h.takeEdits edits).2.agreesWith snapshot = true) :
    Prepared { (h.takeEdits edits).2 with snapshot, parseDue := true } := by
  obtain ⟨ledger, revision, size, drained, rules, queued, unfailed, parsed, -⟩ := balanced
  by_cases edited : edits = []
  · -- Without an edit the tree of before is that of the new snapshot.
    subst edited
    have same : h.log.revision = snapshot.revision ∧ h.log.size = snapshot.size := by
      simpa [agreesWith, Highlighter.takeEdits] using agrees
    refine ⟨ledger.of_sameWork ⟨rfl, rfl, rfl, rfl, rfl, rfl, rfl⟩, attached, same.1, same.2, rules,
      queued, unfailed.retriable, Or.inr ⟨drained, fun l hl => ?_⟩⟩
    obtain ⟨t, tree, sameRevision, sameSize⟩ := (parsed attached).2 l hl
    exact ⟨t, tree, sameRevision.trans (revision.symm.trans same.1),
      sameSize.trans (size.symm.trans same.2)⟩
  · exact ledger.prepared_takeEdits attached rules queued (fun r given => (unfailed.1 r given).le)
      unfailed.retriable.2 linedUp edited agrees

/-- A batch is followed, or the highlighter starts over from the text. -/
theorem Balanced.turn_textDidChange (balanced : h.Balanced) (snapshot : Snapshot)
    (edits : List Edit) :
    Turn engine h.collectResults.2 (.textDidChange snapshot edits)
      (!edits.isEmpty || !h.agreesWith snapshot) (h.textDidChange engine snapshot edits) := by
  obtain ⟨collected, same⟩ := balanced.collectResults
  have agrees : h.agreesWith snapshot = h.collectResults.2.agreesWith snapshot := by
    rw [agreesWith, agreesWith, same.log]
  rw [agrees]
  unfold textDidChange
  dsimp only
  clear agrees same
  generalize h.collectResults.2 = h₁ at collected
  obtain ⟨ledger, live⟩ := collected.ledger.takeEdits edits
  obtain ⟨log, scheduler, index, eq, inFlight, lastJob, unclassified⟩ := takeEdits_eq h₁ edits
  have rules := collected.rules
  have queued := collected.queued
  have unfailed := collected.unfailed
  have released := collected.released
  cases inSync : (h₁.takeEdits edits).1 && (h₁.takeEdits edits).2.agreesWith snapshot with
  | false =>
      -- All that was taken from the batch is forgotten.
      rw [follow_of_astray inSync]
      rw [eq] at ledger ⊢
      obtain ⟨notices, started⟩ := restart_eq { h₁ with log, scheduler, index, snapshot }
      rw [started]
      refine Startable.turn ⟨?_, rfl, rfl, rfl, rules_discardTree rules,
        ⟨queued.1, fun _ => rfl, fun _ => rfl⟩, ⟨nofun, failures_map unfailed.2 fun _ => rfl⟩,
        fun detached => ⟨rfl, tree?_discardTree _, rfl, rfl, (released detached).worker, rfl⟩⟩
        (fun _ hj => absurd hj List.not_mem_nil) lastJob (Or.inl (tree?_discardTree _))
      exact (ledger.reset ⟨snapshot.revision, snapshot.size, []⟩
        (discardTree h₁).language).of_sameWork ⟨rfl, rfl, rfl, rfl, rfl, rfl, rfl⟩
  | true =>
      obtain ⟨linedUp, agrees⟩ := Bool.and_eq_true_iff.mp inSync
      rw [follow_of_inSync linedUp agrees]
      have superseding : (!edits.isEmpty || !h₁.agreesWith snapshot) = !edits.isEmpty := by
        cases edits with
        | nil =>
            rw [show h₁.agreesWith snapshot = true from agrees]
            rfl
        | cons e rest => rfl
      rw [superseding]
      by_cases attached : h₁.attached = true
      · have prepared := collected.prepared_takeEdits attached linedUp agrees
        rw [if_pos prepared.attached]
        exact .followed prepared ⟨linedUp, rfl⟩
      · rw [Bool.not_eq_true] at attached
        obtain ⟨empty, tree, jobs, deferred, worker, degraded⟩ := released attached
        simp only [agreesWith, Bool.and_eq_true, beq_iff_eq] at agrees
        obtain ⟨revision, size⟩ := agrees
        rw [eq] at ledger revision size ⊢
        rw [if_neg (by simp [attached]), reconcile_of_detached]
        · exact .released ⟨ledger.of_sameWork ⟨rfl, rfl, rfl, rfl, rfl, rfl, rfl⟩, revision, size,
            rfl, rules,
            ⟨queued.1, fun alone => (queued.2.1 alone).trans inFlight.symm, queued.2.2⟩,
            ⟨fun r stale => absurd (degraded.symm.trans stale) nofun, unfailed.2⟩,
            fun attached' => absurd (attached.symm.trans attached') (by decide),
            fun _ => ⟨unclassified empty, tree, inFlight.trans jobs, deferred, worker, degraded⟩⟩
            attached lastJob
        · exact attached

theorem Balanced.delivered (balanced : h.Balanced) (c : HighlighterCall) :
    (h.delivered c).Balanced ∧ SameSetting (h.delivered c) h := by
  cases c with
  | textDidChange snapshot edits => exact balanced.collectResults
  | poll => exact balanced.collectResults
  | _ => exact ⟨balanced, sameSetting_refl h⟩

/-- Every call is one of these turns. -/
theorem Balanced.turn (balanced : h.Balanced) (c : HighlighterCall) :
    Turn engine (h.delivered c) c (h.supersedes c) (h.call engine c) := by
  cases c with
  | attach => exact balanced.turn_attach
  | detach => exact balanced.turn_detach
  | setLanguage source => exact balanced.turn_setLanguage source
  | setLanguageFrom registry name => exact balanced.turn_setLanguage _
  | setTheme theme => exact balanced.turn_setTheme theme
  | setVisible visible => exact balanced.turn_setVisible visible
  | textDidChange snapshot edits => exact balanced.turn_textDidChange snapshot edits
  | invalidate span =>
      cases span with
      | none => exact balanced.turn_invalidate none
      | some s => exact balanced.turn_invalidate (some s)
  | poll => exact balanced.turn_poll
  | workerStep => exact balanced.turn_workerStep
  | subscribe label => exact balanced.turn_listeners _ _
  | unsubscribe id => exact balanced.turn_listeners _ _
  | collect => exact balanced.turn_listeners _ _

/-! ### The tree of a call -/

theorem SameSetting.tree? (same : SameSetting h' h) : h'.tree? = h.tree? := by
  unfold Highlighter.tree?
  rw [same.language]

/-- The tree is kept or parsed for the text. -/
theorem tree?_upToDate {t : SyntaxTree} (tree : (h.upToDate engine).tree? = some t) :
    h.tree? = some t ∨ t.snapshot = h.snapshot := by
  unfold upToDate parsed at tree
  cases language : h.language with
  | none =>
      rw [language] at tree
      exact Or.inl tree
  | some l =>
      rw [language] at tree
      dsimp only at tree
      split at tree
      · cases tree
        rcases TreeKeeper.outcome_cases l.keeper (engine l.rules.grammar) h.log.pending
          h.snapshot with eq | ⟨t, old, ⟨-, eq⟩ | ⟨-, eq⟩⟩
        · rw [eq]
          exact Or.inr rfl
        · rw [eq]
          left
          rw [tree?, language]
          exact old
        · rw [eq]
          exact Or.inr rfl
      · exact Or.inl tree

theorem Prepared.tree? {t : SyntaxTree} (prepared : h.Prepared)
    (tree : (h.reconcile engine).tree? = some t) : h.tree? = some t ∨ t.snapshot = h.snapshot := by
  rw [reconcile_eq prepared.attached, (sameSetting_pump _).tree?] at tree
  exact tree?_upToDate tree

/-- A tree is that of before, or it was parsed for the text. -/
theorem Turn.tree? {c : HighlighterCall} {b : Bool} {t : SyntaxTree} (turn : Turn engine h c b h')
    (tree : h'.tree? = some t) : h.tree? = some t ∨ t.snapshot = h'.snapshot := by
  have snapshot : ∀ x : Highlighter, (x.reconcile engine).snapshot = x.snapshot :=
    fun x => congrArg Prod.snd (frame_reconcile engine x)
  cases turn with
  | quiet _ same => exact Or.inl (same.tree? ▸ tree)
  | released balanced detached =>
      rw [(balanced.released detached).tree] at tree
      cases tree
  | @restarted _ _ x prepared restarted =>
      rw [snapshot]
      rcases prepared.tree? tree with old | new
      · rcases restarted.tree with none | same
        · rw [none] at old
          cases old
        · obtain ⟨l, hl, held⟩ := Option.bind_eq_some_iff.mp old
          obtain ⟨l', hl', -, keeps⟩ := same.language l hl
          left
          rw [Highlighter.tree?, hl']
          exact keeps.symm.trans held
      · exact Or.inr new
  | resumed prepared same =>
      rw [snapshot]
      exact (prepared.tree? tree).imp_left fun old => same.tree? ▸ old
  | @pumped _ x balanced _ same =>
      rw [((sameSetting_pump x).trans same).tree?] at tree
      exact Or.inl tree
  | @followed _ edits x prepared followed =>
      rw [snapshot]
      apply (prepared.tree? tree).imp_left
      intro old
      obtain ⟨log, scheduler, index, eq, -⟩ := takeEdits_eq h edits
      rw [followed.eq, eq] at old
      exact old

/-! ### Along every run -/

theorem Balanced.run (balanced : h.Balanced) (calls : List HighlighterCall) :
    (h.run engine calls).Balanced := by
  induction calls generalizing h with
  | nil => exact balanced
  | cons c rest ih => exact ih (balanced.turn c).balanced

/-- The books agree after every run of calls, whatever snapshots and edits the calls were given. -/
theorem books_agree (engine : ParsingEngine) (snapshot : Snapshot) (theme : Theme)
    (config : HighlighterConfig) (calls : List HighlighterCall) :
    let h := (make snapshot theme config).run engine calls
    (h.log.revision = h.snapshot.revision ∧ h.scheduler.revision = h.snapshot.revision) ∧
      h.log.size = h.snapshot.size ∧ h.log.pending = [] ∧
      (∀ r ∈ h.index.runs, r.span.start < r.span.stop ∧ r.span.stop ≤ h.snapshot.size) ∧
      (∀ j ∈ h.scheduler.liveJobs, j.span.start < j.span.stop ∧ j.span.stop ≤ h.snapshot.size) ∧
      (h.attached = true → ∀ l, h.language = some l → ∃ t, h.tree? = some t ∧
        t.revision = h.snapshot.revision ∧ t.snapshot.size = h.snapshot.size) ∧
      (h.attached = false → h.index = .empty ∧ h.tree? = none ∧ h.scheduler.inFlight = [] ∧
        h.deferred = []) ∧
      (config.background = false → h.deferred.map Request.job = h.scheduler.inFlight) := by
  intro h
  have balanced : h.Balanced := (balanced_make snapshot theme config).run calls
  obtain ⟨ledger, revision, size, drained, -, queued, unfailed, parsed, released⟩ := balanced
  refine ⟨⟨revision, ledger.revision.trans revision⟩, size, drained, ?_, fun j hj => ⟨?_, ?_⟩,
    fun attached l hl => ?_, fun detached => ?_, fun off => ?_⟩
  · rw [← size]
    exact ledger.inside
  · exact ledger.sound.nonempty j (Scheduler.mem_liveJobs.mp hj).1
  · rw [← size]
    exact ledger.jobs j hj
  · obtain ⟨t, tree, same⟩ := (parsed attached).2 l hl
    exact ⟨t, by rw [tree?, hl]; exact tree, same⟩
  · obtain ⟨index, tree, jobs, deferred, -, -⟩ := released detached
    exact ⟨index, tree, jobs, deferred⟩
  · refine queued.2.1 (queued.1 ?_)
    rw [config_run]
    exact off

/-- The first edit of a batch is taken, the second ends behind the text and is rejected. The log does
not stay half way: it stands at the new text, as do the tree, the job and its request. -/
theorem books_agree_after_rejected_edit :
    let engine : ParsingEngine := fun _ _ _ => ⟨[], []⟩
    let calls : List HighlighterCall := [.setLanguage (some ⟨"bare", 14, none, []⟩), .attach]
    let target : Snapshot := ⟨7, .ofString "ab\ncxd\n"⟩
    let edits : List Edit := [⟨0, ⟨4, 4⟩, .ofString "x"⟩, ⟨0, ⟨6, 99⟩, .ofString "y"⟩]
    ∃ before h : Highlighter,
      before = (make ⟨0, .ofString "ab\ncd\n"⟩ .empty ⟨⟨0, 0, 64, 1⟩, 2, false⟩).run engine calls ∧
      h = before.textDidChange engine target edits ∧
      (before.takeEdits edits).1 = false ∧
      ((before.takeEdits edits).2.log.revision, (before.takeEdits edits).2.log.size) = (1, 7) ∧
      (h.log.revision, h.log.size, h.log.pending) = (7, 7, []) ∧
      (∃ t, h.tree? = some t ∧ t.revision = 7) ∧
      h.deferred.map (fun r => (r.job, r.tree.revision)) = [(⟨2, 4, 7, ⟨0, 7⟩⟩, 7)] ∧
      h.scheduler.inFlight = h.deferred.map Request.job := by
  intro engine calls target edits
  have agree := books_agree engine ⟨0, .ofString "ab\ncd\n"⟩ .empty ⟨⟨0, 0, 64, 1⟩, 2, false⟩
    (calls ++ [.textDidChange target edits])
  rw [Highlighter.run, List.foldl_concat, ← Highlighter.run] at agree
  generalize ran : (make ⟨0, .ofString "ab\ncd\n"⟩ .empty ⟨⟨0, 0, 64, 1⟩, 2, false⟩).run engine
    calls = before at agree ⊢
  have text : (before.textDidChange engine target edits).snapshot = target :=
    snapshot_call engine before (.textDidChange target edits)
  obtain ⟨⟨revision, -⟩, size, drained, -, -, tree, -, queue⟩ := agree
  change (before.textDidChange engine target edits).log.revision = _ at revision
  refine ⟨before, _, rfl, rfl, by rw [← ran]; decide +kernel, by rw [← ran]; decide +kernel, ?_, ?_,
    by rw [← ran]; decide +kernel, (queue rfl).symm⟩
  · exact Prod.ext (revision.trans (congrArg Snapshot.revision text))
      (Prod.ext (size.trans (congrArg Snapshot.size text)) drained)
  · obtain ⟨l, language⟩ : ∃ l, (before.textDidChange engine target edits).language = some l := by
      apply Option.isSome_iff_exists.mp
      rw [← ran]
      decide +kernel
    obtain ⟨t, parsed, same, -⟩ := tree (by rw [← ran]; decide +kernel) l language
    exact ⟨t, parsed, same.trans (congrArg Snapshot.revision text)⟩

end Highlighter

end Highlighting
