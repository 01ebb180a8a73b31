import Highlighting.Proofs.Highlighter.Standing
import Highlighting.Proofs.Highlighter.Turns

/-!
How much the background worker has to do.

A request is with the worker until its answer is collected, whatever becomes of its job. The worker
is asked for no more jobs than may be outstanding, and superseded jobs count as long as they are on
the books; so a burst of edits or of new themes sends it nothing. But whoever starts over takes all
jobs off the books, and the requests for them stay with the worker, which may be asked for as many
again. That is the one way in which requests pile up (`Highlighter.unanswered_requests_bounded`),
and they do (`Highlighter.requests_pile_up`).

The worker answers in the order in which it is asked, and jobs are numbered in that order. So the
jobs on the books are always the last of those that it was asked for (`Scheduler.Tallies`).
-/

namespace Highlighting

namespace Scheduler

variable {s t : Scheduler} {missing : Nat} {sent : List Job} {job : Job}

/-- The jobs on the books, not more than may be outstanding, are the last of those that were sent
and not answered. At most `missing` others were sent. -/
structure Tallies (missing : Nat) (sent : List Job) (s : Scheduler) : Prop where
  last : s.inFlight <:+ sent
  numbered : sent.Pairwise fun i j => i.id < j.id
  issued : ∀ j ∈ sent, j.id ≤ s.lastJob
  within : s.inFlight.length ≤ s.config.maxInFlight
  few : sent.length ≤ missing + s.inFlight.length

theorem Tallies.of_same (tallies : s.Tallies missing sent) (config : t.config = s.config)
    (inFlight : t.inFlight = s.inFlight) (lastJob : s.lastJob ≤ t.lastJob) :
    t.Tallies missing sent where
  last := inFlight ▸ tallies.last
  numbered := tallies.numbered
  issued := fun j hj => (tallies.issued j hj).trans lastJob
  within := by
    rw [inFlight, config]
    exact tallies.within
  few := inFlight ▸ tallies.few

/-- The oldest job is answered. It leaves the books if it stands there, and then no other is
missing. -/
theorem Tallies.answer (tallies : s.Tallies missing (job :: sent)) (sound : s.Sound) :
    (s.without job.id).Tallies missing sent := by
  obtain ⟨behind, numbered⟩ := List.pairwise_cons.mp tallies.numbered
  have issued : ∀ j ∈ sent, j.id ≤ s.lastJob :=
    fun j hj => tallies.issued j (List.mem_cons_of_mem job hj)
  have fewer : (s.without job.id).inFlight.length ≤ s.inFlight.length := List.length_filter_le ..
  -- The jobs on the books are the last ones that were sent. So the oldest that was sent is the
  -- first on the books, or it has gone missing and all on the books are behind it.
  rcases List.suffix_cons_iff.mp tallies.last with first | later
  · have left : (s.without job.id).inFlight = sent :=
      Highlighter.inFlight_without_first sound first
    refine ⟨left ▸ List.suffix_rfl, numbered, issued, fewer.trans tallies.within, ?_⟩
    rw [left]
    exact Nat.le_add_left _ _
  · have kept : (s.without job.id).inFlight = s.inFlight := by
      apply List.filter_eq_self.mpr
      intro j hj
      exact bne_iff_ne.mpr (Nat.ne_of_gt (behind j (later.subset hj)))
    have few := tallies.few
    rw [List.length_cons] at few
    refine ⟨kept ▸ later, numbered, issued, fewer.trans tallies.within, ?_⟩
    rw [kept]
    exact Nat.le_of_succ_le few

/-- What a plan dispatches is sent. -/
theorem Tallies.plan (tallies : s.Tallies missing sent) (sound : s.Sound) (size : Nat) :
    (s.plan size).2.Tallies missing (sent ++ (s.plan size).1.jobs) := by
  have planned := Scheduler.planned sound.normal size
  have config : (s.plan size).2.config = s.config := congrArg Prod.fst (limits_plan s size)
  have room := length_jobs_plan_le s size
  have within := tallies.within
  have few := tallies.few
  constructor
  · obtain ⟨others, all⟩ := tallies.last
    rw [planned.inFlight, ← all, List.append_assoc]
    exact List.suffix_append _ _
  · refine List.pairwise_append.mpr ⟨tallies.numbered, planned.numbered, fun i hi j hj => ?_⟩
    exact Nat.lt_of_le_of_lt (tallies.issued i hi) (planned.current j hj).2.2.1
  · intro j hj
    rcases List.mem_append.mp hj with old | new
    · exact (tallies.issued j old).trans planned.lastJob
    · exact (planned.current j new).2.2.2
  · rw [planned.inFlight, List.length_append, config]
    omega
  · rw [planned.inFlight, List.length_append, List.length_append]
    omega

/-- What is on the books goes missing. -/
theorem Tallies.reset (tallies : s.Tallies missing sent) (revision : Revision) :
    (s.reset revision).Tallies (missing + s.config.maxInFlight) sent where
  last := List.nil_suffix
  numbered := tallies.numbered
  issued := tallies.issued
  within := Nat.zero_le _
  few := tallies.few.trans (Nat.add_le_add_left tallies.within missing)

end Scheduler

/-- The requests without an answer that was collected, in the order in which they were made. -/
def Worker.unanswered (w : Worker) : List Request :=
  w.answers.map Answer.request ++ w.requests

theorem Worker.unanswered_submit (w : Worker) (rs : List Request) :
    (w.submit rs).unanswered = w.unanswered ++ rs :=
  (List.append_assoc ..).symm

/-- To answer a request is not to collect the answer. -/
theorem Worker.unanswered_step (w : Worker) : w.step.unanswered = w.unanswered := by
  obtain ⟨requests, answers⟩ := w
  cases requests with
  | nil => rfl
  | cons r rest => simp [step, unanswered, Request.answer]

namespace Highlighter

variable {h h' : Highlighter} {engine : ParsingEngine} {missing : Nat}

/-- The requests that are with the worker. -/
def unanswered (h : Highlighter) : List Request :=
  match h.worker with
  | none => []
  | some w => w.unanswered

/-- The call takes all jobs off the books: the language changes, or the edits of a change do not
line up with its text. -/
def abandons (h : Highlighter) : HighlighterCall → Bool
  | .setLanguage _ | .setLanguageFrom _ _ => true
  | .textDidChange snapshot edits =>
    !((h.takeEdits edits).1 && (h.takeEdits edits).2.agreesWith snapshot)
  | _ => false

/-- How many of the calls take all jobs off the books. -/
def abandonments (engine : ParsingEngine) : Highlighter → List HighlighterCall → Nat
  | _, [] => 0
  | h, c :: rest => (if h.abandons c then 1 else 0) + abandonments engine (h.call engine c) rest

/-- All work goes to the worker, and the books tally with what it was asked for. -/
structure Supplied (missing : Nat) (h : Highlighter) : Prop where
  working : h.worker ≠ none
  deferred : h.deferred = []
  tallies : h.scheduler.Tallies missing (h.unanswered.map Request.job)

theorem Supplied.of_same (supplied : h.Supplied missing) (worker : h'.worker = h.worker)
    (deferred : h'.deferred = h.deferred) (config : h'.scheduler.config = h.scheduler.config)
    (inFlight : h'.scheduler.inFlight = h.scheduler.inFlight)
    (lastJob : h.scheduler.lastJob ≤ h'.scheduler.lastJob) : h'.Supplied missing where
  working := worker ▸ supplied.working
  deferred := deferred.trans supplied.deferred
  tallies := by
    rw [unanswered, worker]
    exact supplied.tallies.of_same config inFlight lastJob

/-! ### The parts of a call -/

/-- What the worker has ready is taken in, in order. -/
theorem tallies_finishAll (sound : h.scheduler.Sound) {answers : List Answer} {sent : List Job}
    (tallies : h.scheduler.Tallies missing (answers.map (fun a => a.request.job) ++ sent)) :
    ∃ scheduler index outbox, (h.finishAll answers).2 = { h with scheduler, index, outbox } ∧
      scheduler.Tallies missing sent := by
  induction answers generalizing h with
  | nil => exact ⟨h.scheduler, h.index, h.outbox, rfl, tallies⟩
  | cons a rest ih =>
      have config : (h.finish a.request.job.id a.runs).2.scheduler.config = h.scheduler.config :=
        congrArg (fun t => t.2.2.1) (steady_standing.finish h a.request.job.id a.runs)
      obtain ⟨scheduler, index, outbox, eq, books, -⟩ := finish_eq sound a.request.job.id a.runs
      change ∃ scheduler index outbox,
        ((h.finish a.request.job.id a.runs).2.finishAll rest).2 = _ ∧ _
      rw [eq] at config ⊢
      exact ih (books.sound (sound.without _))
        ((tallies.answer sound).of_same config books.inFlight (Nat.le_of_eq books.lastJob.symm))

theorem Supplied.collectResults (supplied : h.Supplied missing) (sound : h.scheduler.Sound) :
    h.collectResults.2.Supplied missing := by
  obtain ⟨w, worker⟩ := Option.ne_none_iff_exists'.mp supplied.working
  have tallies := supplied.tallies
  have held : h.unanswered = w.answers.map Answer.request ++ w.requests := by
    rw [unanswered, worker]
    rfl
  rw [held, List.map_append, List.map_map] at tallies
  obtain ⟨scheduler, index, outbox, eq, left⟩ :=
    tallies_finishAll (h := { h with worker := some { w with answers := [] } }) sound tallies
  have collected : h.collectResults.2 =
      { h with worker := some { w with answers := [] }, scheduler, index, outbox } := by
    unfold Highlighter.collectResults collectAnswers
    rw [worker]
    dsimp only
    rw [eq, runDeferred]
    dsimp only
    rw [supplied.deferred]
  rw [collected]
  exact ⟨Option.some_ne_none _, supplied.deferred, left⟩

theorem supplied_submit (working : h.worker ≠ none) (deferred : h.deferred = [])
    {rs : List Request}
    (tallies : h.scheduler.Tallies missing (h.unanswered.map Request.job ++ rs.map Request.job)) :
    (h.submit rs).Supplied missing := by
  obtain ⟨w, worker⟩ := Option.ne_none_iff_exists'.mp working
  have sent : h.submit rs = { h with worker := some (w.submit rs) } := by
    rw [submit, worker]
  have all : (h.submit rs).unanswered = h.unanswered ++ rs := by
    rw [sent, unanswered, unanswered, worker]
    exact w.unanswered_submit rs
  rw [← List.map_append, ← all] at tallies
  rw [sent] at tallies ⊢
  exact ⟨Option.some_ne_none _, deferred, tallies⟩

/-- Without a tree nothing is sent; with one all planned jobs are. -/
theorem Supplied.pump (supplied : h.Supplied missing) (sound : h.scheduler.Sound)
    (idle : h.parsePending = false) : h.pump.Supplied missing := by
  have config : h.pump.scheduler.config = h.scheduler.config :=
    congrArg (fun t => t.2.2.1) (steady_standing.pump h)
  have planned := Scheduler.planned sound.normal h.snapshot.size
  cases basis : h.basis? with
  | none =>
      obtain ⟨scheduler, index, outbox, eq, books⟩ := pump_of_none sound idle basis
      rw [eq] at config ⊢
      exact supplied.of_same rfl rfl config books.inFlight (books.lastJob ▸ planned.lastJob)
  | some basis' =>
      obtain ⟨scheduler, index, outbox, eq, books⟩ := pump_of_some idle basis
      obtain ⟨worker, deferred, sent, -⟩ := submit_eq { h with scheduler, index, outbox }
        ((h.scheduler.plan h.snapshot.size).1.jobs.map fun job => ⟨job, basis'.1, basis'.2⟩)
      have settings : (h.scheduler.plan h.snapshot.size).2.config = h.scheduler.config :=
        congrArg Prod.fst (Scheduler.limits_plan _ _)
      have kept : scheduler.config = (h.scheduler.plan h.snapshot.size).2.config := by
        rw [eq, sent] at config
        exact config.trans settings.symm
      have tallies := (supplied.tallies.plan sound h.snapshot.size).of_same kept books.inFlight
        (Nat.le_of_eq books.lastJob.symm)
      rw [eq]
      apply supplied_submit (h := { h with scheduler, index, outbox }) supplied.working
        supplied.deferred
      rw [List.map_map]
      exact (List.map_id _).symm ▸ tallies

theorem Supplied.reconcile (supplied : h.Supplied missing) (sound : h.scheduler.Sound) :
    (h.reconcile engine).Supplied missing := by
  by_cases attached : h.attached = true
  · obtain ⟨language, log, phase, dirty, eq, sound', -⟩ := upToDate_eq engine h
    rw [reconcile_eq attached, eq]
    exact Supplied.pump (supplied.of_same rfl rfl rfl rfl (Nat.le_refl _)) (sound' sound)
      (by simp [parsePending])
  · rw [Highlighter.reconcile, if_neg attached]
    exact supplied

theorem Supplied.startOver (supplied : h.Supplied missing) (sound : h.scheduler.Sound) :
    (h.startOver engine).Supplied missing := by
  refine Supplied.reconcile ?_ (sound_queueAll sound)
  unfold queueAll
  cases h.attached with
  | true => exact supplied.of_same rfl rfl rfl rfl (Nat.le_refl _)
  | false => exact supplied.of_same rfl rfl rfl rfl (Nat.le_refl _)

/-- The worker keeps its requests when the books are cleared. -/
theorem Supplied.clearWork (supplied : h.Supplied missing) :
    h.clearWork.Supplied (missing + h.scheduler.config.maxInFlight) :=
  ⟨supplied.working, rfl, supplied.tallies.reset _⟩

theorem Supplied.takeEdits (supplied : h.Supplied missing) (edits : List Edit) :
    (h.takeEdits edits).2.Supplied missing := by
  have config : (h.takeEdits edits).2.scheduler.config = h.scheduler.config :=
    congrArg (fun t => t.2.2.1) (standing_takeEdits h edits)
  obtain ⟨log, scheduler, index, eq, inFlight, lastJob, -⟩ := takeEdits_eq h edits
  rw [eq] at config ⊢
  exact supplied.of_same rfl rfl config inFlight (Nat.le_of_eq lastJob.symm)

/-! ### The calls -/

theorem Supplied.setLanguage (supplied : h.Supplied missing) (source : Option Grammar) :
    (h.setLanguage engine source).2.Supplied (missing + h.scheduler.config.maxInFlight) := by
  obtain ⟨language, notices, eq, -⟩ := setLanguage_eq engine h source
  rw [eq]
  exact Supplied.startOver (supplied.clearWork.of_same rfl rfl rfl rfl (Nat.le_refl _))
    (Scheduler.sound_reset _ _)

theorem Supplied.textDidChange (supplied : h.Supplied missing) (balanced : h.Balanced)
    (snapshot : Snapshot) (edits : List Edit) :
    (h.textDidChange engine snapshot edits).Supplied
      (if h.abandons (.textDidChange snapshot edits)
        then missing + h.scheduler.config.maxInFlight else missing) := by
  obtain ⟨collected, same⟩ := balanced.collectResults
  obtain ⟨linedUp, log⟩ := takeEdits_congr same.log edits
  have inSync : ((h.collectResults.2.takeEdits edits).1 &&
        (h.collectResults.2.takeEdits edits).2.agreesWith snapshot) =
      ((h.takeEdits edits).1 && (h.takeEdits edits).2.agreesWith snapshot) := by
    rw [linedUp, agreesWith, agreesWith, log]
  have config : (h.collectResults.2.takeEdits edits).2.scheduler.config = h.scheduler.config :=
    congrArg (fun t => t.2.2.1)
      ((standing_takeEdits _ edits).trans (steady_standing.collectResults h))
  have taken := (supplied.collectResults balanced.ledger.sound).takeEdits edits
  have sound := (collected.ledger.takeEdits edits).1.sound
  unfold Highlighter.textDidChange follow abandons
  dsimp only
  rw [inSync]
  generalize (h.collectResults.2.takeEdits edits).2 = x at taken sound config
  split
  · obtain ⟨notices, started⟩ := restart_eq { x with snapshot }
    have rebased : Supplied missing
        { x with snapshot, log := x.log.reset snapshot.revision snapshot.size } :=
      taken.of_same rfl rfl rfl rfl (Nat.le_refl _)
    rw [started, ← config]
    exact Supplied.startOver (rebased.clearWork.of_same rfl rfl rfl rfl (Nat.le_refl _))
      (Scheduler.sound_reset _ _)
  · exact Supplied.reconcile (taken.of_same rfl rfl rfl rfl (Nat.le_refl _)) sound

theorem Supplied.workerStep (supplied : h.Supplied missing) : h.workerStep.Supplied missing := by
  obtain ⟨w, worker⟩ := Option.ne_none_iff_exists'.mp supplied.working
  have stepped : h.workerStep = { h with worker := some w.step } := by
    rw [Highlighter.workerStep, worker]
    rfl
  have same : unanswered { h with worker := some w.step } = h.unanswered := by
    rw [unanswered, unanswered, worker]
    exact w.unanswered_step
  rw [stepped]
  refine ⟨Option.some_ne_none _, supplied.deferred, ?_⟩
  rw [same]
  exact supplied.tallies

theorem Supplied.call (supplied : h.Supplied missing) (balanced : h.Balanced)
    (c : HighlighterCall) (stays : c ≠ .detach) :
    (h.call engine c).Supplied
      (if h.abandons c then missing + h.scheduler.config.maxInFlight else missing) := by
  have sound := balanced.ledger.sound
  have attached : h.attached = true := by
    by_contra detached
    exact supplied.working (balanced.released (Bool.eq_false_iff.mpr detached)).worker
  -- Most calls touch neither a queue nor the jobs in flight before they plan.
  have unsent : ∀ {h' : Highlighter} {phase dirty epoch visible}, h'.worker = h.worker →
      h'.deferred = h.deferred →
      h'.scheduler = { h.scheduler with phase, dirty, epoch, visible } → h'.Supplied missing := by
    intro h' phase dirty epoch visible worker deferred scheduler
    apply supplied.of_same worker deferred
    all_goals rw [scheduler]
  cases c with
  | attach =>
      dsimp only [Highlighter.call]
      rw [attach_eq, if_pos attached]
      exact supplied
  | detach => exact absurd rfl stays
  | setLanguage source => exact supplied.setLanguage source
  | setLanguageFrom registry name => exact supplied.setLanguage _
  | setTheme theme =>
      dsimp only [Highlighter.call, setTheme]
      rw [requeue_of_attached (h := h.withTheme theme) attached]
      exact Supplied.reconcile (unsent rfl rfl rfl) (sound.invalidateAll _)
  | setVisible visible =>
      have attached' : (h.withVisible visible).attached = true := attached
      dsimp only [Highlighter.call, setVisible]
      rw [if_pos attached']
      exact Supplied.pump (unsent rfl rfl rfl) (sound.setVisible _) balanced.parsePending_eq_false
  | textDidChange snapshot edits => exact supplied.textDidChange balanced snapshot edits
  | invalidate span =>
      dsimp only [Highlighter.call, invalidate]
      rw [requeue_of_attached attached]
      cases span with
      | none => exact Supplied.reconcile (unsent rfl rfl rfl) (sound.invalidateAll _)
      | some s => exact Supplied.reconcile (unsent rfl rfl rfl) (sound.request _)
  | poll =>
      exact (supplied.collectResults sound).reconcile balanced.collectResults.1.ledger.sound
  | workerStep => exact supplied.workerStep
  | subscribe label => exact unsent rfl rfl rfl
  | unsubscribe id => exact unsent rfl rfl rfl
  | collect => exact unsent rfl rfl rfl

/-- A highlighter that is attached has an idle worker. -/
theorem Balanced.supplied_attach (balanced : h.Balanced) (detached : h.attached = false)
    (on : h.config.background = true) : (h.attach engine).Supplied 0 := by
  have released := balanced.released detached
  have started : h.attach engine =
      startOver engine { h with attached := true, worker := some Worker.idle } := by
    rw [attach_eq, if_neg (by simp [detached]), on]
    rfl
  have idle : Supplied 0 { h with attached := true, worker := some Worker.idle } := by
    refine ⟨Option.some_ne_none _, released.deferred, ?_⟩
    constructor
    · rw [released.jobs]
      exact List.nil_suffix
    · exact List.Pairwise.nil
    · exact nofun
    · rw [released.jobs]
      exact Nat.zero_le _
    · exact Nat.zero_le _
  rw [started]
  exact idle.startOver balanced.ledger.sound

theorem Supplied.run (supplied : h.Supplied missing) (balanced : h.Balanced)
    {calls : List HighlighterCall} (stays : ∀ c ∈ calls, c ≠ .detach) :
    (h.run engine calls).Supplied
      (missing + abandonments engine h calls * h.scheduler.config.maxInFlight) := by
  induction calls generalizing h missing with
  | nil =>
      rw [abandonments, Nat.zero_mul]
      exact supplied
  | cons c rest ih =>
      obtain ⟨first, others⟩ := List.forall_mem_cons.mp stays
      have config : (h.call engine c).scheduler.config = h.scheduler.config :=
        schedulerConfig_run engine h [c]
      have next : (h.call engine c).Supplied _ := supplied.call balanced c first
      have last := ih next (balanced.turn c).balanced others
      rw [config] at last
      change Supplied _ ((h.call engine c).run engine rest)
      rw [abandonments, Nat.add_mul, ← Nat.add_assoc]
      cases abandons : h.abandons c with
      | false => simpa [abandons] using last
      | true => simpa [abandons] using last

/-- Between an attachment and the detachment after it, the worker holds requests for the jobs on the
books, which are not more than may be outstanding. Before these it holds at most as many requests
for each call that has taken all jobs off the books, and no other. -/
theorem unanswered_requests_bounded (engine : ParsingEngine) (snapshot : Snapshot) (theme : Theme)
    (config : HighlighterConfig) (before calls : List HighlighterCall)
    (on : config.background = true) :
    let h := (make snapshot theme config).run engine before
    let last := (h.call engine .attach).run engine calls
    h.attached = false → (∀ c ∈ calls, c ≠ .detach) →
      ∃ missing, last.unanswered.map Request.job = missing ++ last.scheduler.inFlight ∧
        last.scheduler.inFlight.length ≤ config.scheduler.maxInFlight ∧
        missing.length ≤
          abandonments engine (h.call engine .attach) calls * config.scheduler.maxInFlight := by
  intro h last detached stays
  have balanced : h.Balanced := (balanced_make snapshot theme config).run before
  have background : h.config.background = true := by
    rw [config_run]
    exact on
  have limits : (h.call engine .attach).scheduler.config = config.scheduler :=
    (schedulerConfig_run engine h [.attach]).trans (schedulerConfig_run engine _ before)
  have limits' : last.scheduler.config = config.scheduler :=
    (schedulerConfig_run engine _ calls).trans limits
  have started : (h.call engine .attach).Supplied 0 := balanced.supplied_attach detached background
  have supplied : last.Supplied _ := started.run (balanced.turn .attach).balanced stays
  obtain ⟨missing, all⟩ := supplied.tallies.last
  have within := supplied.tallies.within
  have few := supplied.tallies.few
  rw [← all, List.length_append, Nat.zero_add, limits] at few
  rw [limits'] at within
  exact ⟨missing, all.symm, within, Nat.le_of_add_le_add_right few⟩

/-- The language is switched while the only job that may be outstanding is at the worker, and then
an edit supersedes the next one. The worker has two requests, and the edit adds none. -/
theorem requests_after_switch_and_edit :
    let engine : ParsingEngine := fun _ _ _ => ⟨[⟨⟨0, 2⟩, 0, 0, 0⟩], []⟩
    let words : HighlighterCall :=
      .setLanguage (some ⟨"words", 14, some ⟨["word"], [[]]⟩, [100]⟩)
    let calls := [words, .textDidChange ⟨1, .ofString "abx\ncd\n"⟩ [⟨1, ⟨2, 2⟩, .ofString "x"⟩]]
    ∃ h last : Highlighter,
      h = (make ⟨0, .ofString "ab\ncd\n"⟩ ⟨[("word", 7)]⟩ ⟨⟨0, 0, 64, 1⟩, 2, true⟩).run engine
        [words] ∧
      last = (h.call engine .attach).run engine calls ∧
      h.attached = false ∧ (∀ c ∈ calls, c ≠ .detach) ∧
      last.unanswered.map (fun r => r.job.id) = [1, 2] ∧
      ∃ missing, last.unanswered.map Request.job = missing ++ last.scheduler.inFlight ∧
        last.scheduler.inFlight.length ≤ 1 ∧
        missing.length ≤ abandonments engine (h.call engine .attach) calls * 1 := by
  intro engine words calls
  have bounded := unanswered_requests_bounded engine ⟨0, .ofString "ab\ncd\n"⟩ ⟨[("word", 7)]⟩
    ⟨⟨0, 0, 64, 1⟩, 2, true⟩ [words] calls rfl (by decide +kernel) (by simp [calls, words])
  exact ⟨_, _, rfl, rfl, by decide +kernel, by simp [calls, words], by decide +kernel, bounded⟩

/-- One job may be outstanding, and the worker has three requests: one for each time that the
language was set, and one since the change whose edit is missing. -/
theorem requests_pile_up :
    let engine : ParsingEngine := fun _ _ _ => ⟨[⟨⟨0, 2⟩, 0, 0, 0⟩], []⟩
    let words : HighlighterCall :=
      .setLanguage (some ⟨"words", 14, some ⟨["word"], [[]]⟩, [100]⟩)
    let calls := [words, .textDidChange ⟨1, .ofString "ef\n"⟩ []]
    ∃ h last : Highlighter,
      h = (make ⟨0, .ofString "ab\ncd\n"⟩ ⟨[("word", 7)]⟩ ⟨⟨0, 0, 64, 1⟩, 2, true⟩).run engine
        [words] ∧
      last = (h.call engine .attach).run engine calls ∧
      h.attached = false ∧ (∀ c ∈ calls, c ≠ .detach) ∧
      last.unanswered.map (fun r => r.job.id) = [1, 2, 3] ∧
      last.scheduler.inFlight.map Job.id = [3] ∧
      ¬last.unanswered.length ≤ h.config.scheduler.maxInFlight := by
  refine ⟨_, _, rfl, rfl, by decide +kernel, by simp, by decide +kernel, by decide +kernel, ?_⟩
  decide +kernel

end Highlighter

end Highlighting
