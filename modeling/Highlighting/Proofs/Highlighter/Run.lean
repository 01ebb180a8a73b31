import Highlighting.Highlighter.Calls
import Highlighting.Proofs.Painting
import Highlighting.Proofs.Scheduler.Plan
import Highlighting.Proofs.Tree.Attempts

/-!
Runs of a highlighter.

A run is a list of calls, with the steps of the background worker among them, so every interleaving
of calls and worker steps is a run. In a run the parsing library always answers and the worker never
exits. What becomes of a text that is given up, and of a highlighter whose worker exits, is told in
`Highlighting.Proofs.Highlighter.Failures` and `Highlighting.Proofs.Highlighter.WorkerExit`.

The parts that calls are made of are described here by the fields that they change: storing runs
changes the index, a result takes its job off the books, and handing out work adds the planned jobs
to them.
-/

namespace Highlighting

/-- The calls on a highlighter, and the steps of its worker. -/
inductive HighlighterCall where
  | attach
  | detach
  | setLanguage (source : Option Grammar)
  | setLanguageFrom (registry : Registry) (name : String)
  | setTheme (theme : Theme)
  | setVisible (visible : Option Span)
  | textDidChange (snapshot : Snapshot) (edits : List Edit)
  | invalidate (span : Option Span)
  | poll
  | workerStep
  | subscribe (label : String)
  | unsubscribe (id : ListenerId)
  | collect

namespace Highlighter

/-- The highlighter after a call. -/
def call (engine : ParsingEngine) (h : Highlighter) : HighlighterCall → Highlighter
  | .attach => h.attach engine
  | .detach => h.detach
  | .setLanguage source => (h.setLanguage engine source).2
  | .setLanguageFrom registry name => (h.setLanguageFrom engine registry name).2
  | .setTheme theme => h.setTheme engine theme
  | .setVisible visible => h.setVisible visible
  | .textDidChange snapshot edits => h.textDidChange engine snapshot edits
  | .invalidate span => h.invalidate engine span
  | .poll => (h.poll engine).2
  | .workerStep => h.workerStep
  | .subscribe label => (h.subscribe label).2
  | .unsubscribe id => (h.unsubscribe id).2
  | .collect => h.collect.2

/-- How a call ends, once it has changed what it is about. -/
inductive Ending where
  | done
  /-- Work is handed out. -/
  | pump
  /-- The tree is brought up to the text before work is handed out. -/
  | reconcile

/-- What a call changes before its last step, and what this step is. Results that are ready have been
merged. -/
def changed (h : Highlighter) : HighlighterCall → Ending × Highlighter
  | .attach =>
    if h.attached then (.done, h) else (.reconcile, (h.employ (.ok .idle)).2.queueAll)
  | .detach => (.done, h.detach)
  | .setLanguage source => (.reconcile, (h.withLanguage (h.languageFor source).2).queueAll)
  | .setLanguageFrom registry name =>
    (.reconcile, (h.withLanguage (h.languageFor (registry.sourceFor name).1).2).queueAll)
  | .setTheme theme => (.reconcile, (h.withTheme theme).requeue none)
  | .setVisible visible => (if h.attached then .pump else .done, h.withVisible visible)
  | .textDidChange snapshot edits => (.reconcile, h.follow snapshot edits)
  | .invalidate span => (.reconcile, h.requeue span)
  | .poll => (.reconcile, h)
  | .workerStep => (.done, h.workerStep)
  | .subscribe label => (.done, (h.subscribe label).2)
  | .unsubscribe id => (.done, (h.unsubscribe id).2)
  | .collect => (.done, h.collect.2)

def concluded (engine : ParsingEngine) : Ending × Highlighter → Highlighter
  | (.done, h) => h
  | (.pump, h) => h.pump
  | (.reconcile, h) => h.reconcile engine

/-- The highlighter after some calls. -/
def run (engine : ParsingEngine) (h : Highlighter) (calls : List HighlighterCall) : Highlighter :=
  calls.foldl (call engine) h

/-- The highlighter once a call has merged the results that are ready, if it is one that does. -/
def delivered (h : Highlighter) : HighlighterCall → Highlighter
  | .textDidChange _ _ | .poll => h.collectResults.2
  | _ => h

/-- A call merges what is ready, makes its changes, and ends. -/
theorem call_eq (engine : ParsingEngine) (h : Highlighter) (c : HighlighterCall) :
    h.call engine c = concluded engine ((h.delivered c).changed c) := by
  cases c with
  | attach =>
      dsimp only [call, delivered, changed]
      unfold attach attachWith
      split
      · rfl
      · rfl
  | setVisible visible =>
      have same : (h.withVisible visible).attached = h.attached := rfl
      dsimp only [call, delivered, changed, setVisible]
      rw [same]
      cases h.attached with
      | true => rfl
      | false => rfl
  | _ => rfl

/-- The call supersedes the jobs of before: it records an edit or starts over from a new text,
changes the language or the theme, queues the whole document again, or detaches. -/
def supersedes (h : Highlighter) : HighlighterCall → Bool
  | .textDidChange snapshot edits => !edits.isEmpty || !h.agreesWith snapshot
  | .setLanguage _ | .setLanguageFrom _ _ | .setTheme _ | .invalidate none | .detach => true
  | _ => false

/-- The text after a call. -/
def textAfter (h : Highlighter) : HighlighterCall → Snapshot
  | .textDidChange snapshot _ => snapshot
  | _ => h.snapshot

/-- The requests that were not answered to the scheduler yet. -/
def outstanding (h : Highlighter) : List Request :=
  h.deferred ++ match h.worker with
    | none => []
    | some w => w.answers.map Answer.request ++ w.requests

/-- The category that classification gives an offset now. -/
def categoryAt (h : Highlighter) (o : Nat) : Category :=
  match h.basis? with
  | none => .unclassified
  | some (tree, rules) => tree.categoryAt rules o

variable {h : Highlighter}

/-- Text, language and configuration are the same. -/
structure SameSetting (h' h : Highlighter) : Prop where
  config : h'.config = h.config
  theme : h'.theme = h.theme
  language : h'.language = h.language
  snapshot : h'.snapshot = h.snapshot
  log : h'.log = h.log
  attached : h'.attached = h.attached
  parseDue : h'.parseDue = h.parseDue
  degraded : h'.degraded = h.degraded

theorem SameSetting.trans {h' h'' : Highlighter} (second : SameSetting h'' h')
    (first : SameSetting h' h) : SameSetting h'' h where
  config := second.config.trans first.config
  theme := second.theme.trans first.theme
  language := second.language.trans first.language
  snapshot := second.snapshot.trans first.snapshot
  log := second.log.trans first.log
  attached := second.attached.trans first.attached
  parseDue := second.parseDue.trans first.parseDue
  degraded := second.degraded.trans first.degraded

theorem SameSetting.basis? {h' : Highlighter} (same : SameSetting h' h) : h'.basis? = h.basis? := by
  unfold Highlighter.basis?
  rw [same.language]

/-! ### Merging -/

theorem merge_eq (h : Highlighter) (s : Span) (runs : List StyleRun) :
    ∃ outbox, h.merge s runs = { h with index := h.index.store s runs, outbox } := by
  unfold merge StyleIndex.store
  cases h.index.replace s runs with
  | ok index => exact ⟨_, rfl⟩
  | error fault =>
      cases h.index.replace s [.unclassified s] with
      | ok index => exact ⟨_, rfl⟩
      | error fault => exact ⟨h.outbox, rfl⟩

/-- A merge reads no book. -/
theorem merge_with_scheduler (h : Highlighter) (scheduler : Scheduler) (s : Span)
    (runs : List StyleRun) :
    merge { h with scheduler } s runs = { h.merge s runs with scheduler } := by
  unfold merge
  dsimp only
  cases h.index.replace s runs with
  | ok index => rfl
  | error fault =>
      cases h.index.replace s [.unclassified s] with
      | ok index => rfl
      | error fault => rfl

/-- A result takes its job off the books. If it is answered to be merged, it is stored and announced
for the live job of its number. Any other result changes the books alone. -/
theorem finish_told (sound : h.scheduler.Sound) (id : JobId) (runs : List StyleRun) :
    ∃ scheduler, Scheduler.SameBooks scheduler (h.scheduler.without id) ∧
      ((∃ job ∈ h.scheduler.liveJobs, job.id = id ∧
          h.finish id runs = (true, { h.merge job.span runs with scheduler })) ∨
        (∀ job ∈ h.scheduler.liveJobs, job.id ≠ id) ∧
          h.finish id runs = (false, { h with scheduler })) := by
  have books := Scheduler.sameBooks_complete sound id
  unfold finish
  rcases Scheduler.complete_cases sound id with
    ⟨eq, absent⟩ | ⟨job, live, own, eq⟩ | ⟨job, mem, stale, own, eq⟩
  · rw [eq] at books ⊢
    exact ⟨_, books, Or.inr ⟨fun j hj => absent j (Scheduler.mem_liveJobs.mp hj).1, rfl⟩⟩
  · rw [eq] at books ⊢
    dsimp only
    rw [merge_with_scheduler]
    exact ⟨_, (Scheduler.sameBooks_settlePhase _).trans books, Or.inl ⟨job, live, own, rfl⟩⟩
  · rw [eq] at books ⊢
    refine ⟨_, books, Or.inr ⟨fun j hj same => stale ?_, rfl⟩⟩
    rw [← sound.eq_of_id_eq (Scheduler.mem_liveJobs.mp hj).1 mem (same.trans own.symm)]
    exact hj

/-- What a result changes: its job leaves the books, and if the job was live the runs are stored for
its span. -/
theorem finish_eq (sound : h.scheduler.Sound) (id : JobId) (runs : List StyleRun) :
    ∃ scheduler index outbox,
      (h.finish id runs).2 = { h with scheduler, index, outbox } ∧
      Scheduler.SameBooks scheduler (h.scheduler.without id) ∧
      ((∃ job ∈ h.scheduler.liveJobs, job.id = id ∧ index = h.index.store job.span runs ∧
          (h.finish id runs).1 = true) ∨
        (∀ job ∈ h.scheduler.liveJobs, job.id ≠ id) ∧ index = h.index ∧
          (h.finish id runs).1 = false) := by
  obtain ⟨scheduler, books, ⟨job, live, own, told⟩ | ⟨absent, told⟩⟩ := finish_told sound id runs
  · obtain ⟨outbox, merged⟩ := merge_eq h job.span runs
    rw [told, merged]
    exact ⟨_, _, _, rfl, books, Or.inl ⟨job, live, own, rfl, rfl⟩⟩
  · rw [told]
    exact ⟨_, _, _, rfl, books, Or.inr ⟨absent, rfl, rfl⟩⟩

theorem sameBooks_finish (sound : h.scheduler.Sound) (id : JobId) (runs : List StyleRun) :
    Scheduler.SameBooks (h.finish id runs).2.scheduler (h.scheduler.without id) := by
  obtain ⟨scheduler, index, outbox, eq, books, -⟩ := finish_eq sound id runs
  rw [eq]
  exact books

/-- What the finishing of each answer keeps, the finishing of all keeps. -/
theorem finishAll_keeps {P : Highlighter → Prop} {answers : List Answer}
    (step : ∀ a ∈ answers, ∀ h, P h → P (h.finish a.request.job.id a.runs).2) (start : P h) :
    P (h.finishAll answers).2 := by
  induction answers generalizing h with
  | nil => exact start
  | cons a rest ih =>
      obtain ⟨first, others⟩ := List.forall_mem_cons.mp step
      exact ih others (first h start)

/-- The answers that the worker has ready. -/
def readyAnswers (h : Highlighter) : List Answer :=
  match h.worker with
  | none => []
  | some w => w.answers

/-- The highlighter once these answers were taken from the worker. -/
def withoutAnswers (h : Highlighter) : Highlighter :=
  { h with worker := h.worker.map fun w => { w with answers := [] } }

theorem collectAnswers_eq (h : Highlighter) :
    h.collectAnswers = h.withoutAnswers.finishAll h.readyAnswers := by
  obtain ⟨_, _, _, _, _, _, _, _, worker, _, _, _, _, _⟩ := h
  cases worker with
  | none => rfl
  | some w => rfl

/-- What is kept when the worker's answers are taken, when one of them is finished and when the
oldest deferred request is run, collecting results keeps. -/
theorem collectResults_keeps {P : Highlighter → Prop} (taken : P h.withoutAnswers)
    (answered : ∀ a ∈ h.readyAnswers, ∀ h, P h → P (h.finish a.request.job.id a.runs).2)
    (ran : ∀ h r rest, h.deferred = r :: rest → P h →
      P (finish { h with deferred := rest } r.job.id r.answer.runs).2) :
    P h.collectResults.2 := by
  have collected : P h.collectAnswers.2 := by
    rw [collectAnswers_eq]
    exact finishAll_keeps answered taken
  change P h.collectAnswers.2.runDeferred.2
  unfold runDeferred
  split
  · exact collected
  · rename_i r rest waiting
    exact ran _ r rest waiting collected

/-- A result that is not merged changes the books alone. -/
theorem finish_of_not_merged {id : JobId} {runs : List StyleRun}
    (dropped : (h.finish id runs).1 = false) :
    ∃ scheduler, (h.finish id runs).2 = { h with scheduler } := by
  unfold finish at dropped ⊢
  split
  · rename_i merged
    rw [merged] at dropped
    cases dropped
  · exact ⟨_, rfl⟩
  · exact ⟨_, rfl⟩

theorem finishAll_of_none_merged {answers : List Answer} (dropped : (h.finishAll answers).1 = 0) :
    ∃ scheduler, (h.finishAll answers).2 = { h with scheduler } := by
  induction answers generalizing h with
  | nil => exact ⟨h.scheduler, rfl⟩
  | cons a rest ih =>
      have parts : (h.finish a.request.job.id a.runs).1.toNat +
          ((h.finish a.request.job.id a.runs).2.finishAll rest).1 = 0 := dropped
      obtain ⟨first, others⟩ := Nat.add_eq_zero_iff.mp parts
      obtain ⟨scheduler, eq⟩ := ih others
      obtain ⟨_, own⟩ := finish_of_not_merged (Bool.toNat_eq_zero.mp first)
      rw [own] at eq
      exact ⟨scheduler, (congrArg (fun x => (finishAll x rest).2) own).trans eq⟩

/-- Where no result is merged, results leave the queues and the books, and nothing else changes. -/
theorem collectResults_of_none_merged (dropped : h.collectResults.1 = 0) :
    ∃ scheduler worker deferred,
      h.collectResults.2 = { h with scheduler, worker, deferred } := by
  have parts : h.collectAnswers.1 + h.collectAnswers.2.runDeferred.1 = 0 := dropped
  obtain ⟨first, second⟩ := Nat.add_eq_zero_iff.mp parts
  rw [collectAnswers_eq] at first
  obtain ⟨scheduler, taken⟩ := finishAll_of_none_merged first
  rw [← collectAnswers_eq] at taken
  change ∃ _ _ _, h.collectAnswers.2.runDeferred.2 = _
  unfold runDeferred at second ⊢
  cases waiting : h.collectAnswers.2.deferred with
  | nil =>
      rw [taken]
      exact ⟨scheduler, _, _, rfl⟩
  | cons r rest =>
      rw [waiting] at second
      obtain ⟨scheduler', ran⟩ := finishAll_of_none_merged second
      rw [taken] at ran
      exact ⟨scheduler', _, rest, (congrArg
        (fun x => (finishAll { x with deferred := rest } [r.answer]).2) taken).trans ran⟩

/-! ### Handing out work -/

theorem foldl_classifyNow_eq (h : Highlighter) (spans : List Span) :
    ∃ outbox, spans.foldl classifyNow h =
      { h with index := spans.foldl (fun x s => x.store s (h.classify s)) h.index, outbox } := by
  induction spans generalizing h with
  | nil => exact ⟨_, rfl⟩
  | cons s rest ih =>
      obtain ⟨outbox, merged⟩ := merge_eq h s (h.classify s)
      obtain ⟨further, folded⟩ := ih (h.classifyNow s)
      rw [List.foldl_cons, folded, classifyNow, merged]
      exact ⟨further, rfl⟩

/-- Without a tree, jobs leave the books as soon as they were handed out. -/
theorem foldl_finishPlain_eq (sound : h.scheduler.Sound) (jobs : List Job) :
    ∃ scheduler index outbox,
      jobs.foldl finishPlain h = { h with scheduler, index, outbox } ∧
      Scheduler.SameBooks scheduler
        { h.scheduler with
          inFlight := h.scheduler.inFlight.filter fun j => jobs.all fun k => j.id != k.id } := by
  induction jobs generalizing h with
  | nil => exact ⟨h.scheduler, h.index, h.outbox, rfl, ⟨rfl, by simp, rfl, rfl, rfl⟩⟩
  | cons job rest ih =>
      obtain ⟨scheduler, index, outbox, eq, books, -⟩ :=
        finish_eq sound job.id [.unclassified job.span]
      have plain : h.finishPlain job = { h with scheduler, index, outbox } := eq
      have sound' : (h.finishPlain job).scheduler.Sound := by
        rw [plain]
        exact books.sound (sound.without job.id)
      obtain ⟨scheduler', index', outbox', eq', books'⟩ := ih sound'
      rw [List.foldl_cons, eq', plain]
      rw [plain] at books'
      refine ⟨scheduler', index', outbox', rfl,
        books'.trans ⟨books.dirty, ?_, books.epoch, books.revision, books.lastJob⟩⟩
      dsimp only
      rw [books.inFlight, Scheduler.without, List.filter_filter]
      apply List.filter_congr
      intro j _
      rw [List.all_cons, Bool.and_comm]

/-- The highlighter once what is to be classified at once was. -/
def planned (h : Highlighter) : Highlighter :=
  (h.scheduler.plan h.snapshot.size).1.inline.foldl classifyNow
    { h with scheduler := (h.scheduler.plan h.snapshot.size).2 }

theorem planned_eq (h : Highlighter) :
    ∃ outbox, h.planned =
      { h with
        scheduler := (h.scheduler.plan h.snapshot.size).2
        index := (h.scheduler.plan h.snapshot.size).1.inline.foldl
          (fun x s => x.store s (h.classify s)) h.index
        outbox } :=
  foldl_classifyNow_eq { h with scheduler := (h.scheduler.plan h.snapshot.size).2 } _

theorem submit_eq (h : Highlighter) (rs : List Request) :
    ∃ worker deferred, h.submit rs = { h with worker, deferred } ∧
      (∀ w, worker = some w → ∃ v, h.worker = some v ∧ w.answers = v.answers) ∧
      (h.worker = none → worker = none ∧ deferred = h.deferred ++ rs) := by
  unfold submit
  cases h.worker with
  | none => exact ⟨none, _, rfl, nofun, fun _ => ⟨rfl, rfl⟩⟩
  | some w =>
      refine ⟨some (w.submit rs), h.deferred, rfl, fun v hv => ⟨w, rfl, ?_⟩, nofun⟩
      cases hv
      rfl

theorem mem_outstanding_submit {rs : List Request} {r : Request} :
    r ∈ (h.submit rs).outstanding ↔ r ∈ h.outstanding ∨ r ∈ rs := by
  unfold submit outstanding
  cases h.worker with
  | none => simp
  | some w =>
      simp only [Worker.submit, List.mem_append]
      rw [or_assoc, or_assoc]

theorem dispatch_of_none (plain : h.basis? = none) (jobs : List Job) :
    h.dispatch jobs = jobs.foldl finishPlain h := by
  unfold dispatch
  rw [plain]

theorem dispatch_of_some {tree : SyntaxTree} {rules : Rules}
    (basis : h.basis? = some (tree, rules)) (jobs : List Job) :
    h.dispatch jobs = h.submit (jobs.map fun job => ⟨job, tree, rules⟩) := by
  unfold dispatch
  rw [basis]

theorem dispatch_nil (h : Highlighter) : h.dispatch [] = h := by
  unfold dispatch submit
  cases h.basis? with
  | none => rfl
  | some basis =>
      obtain ⟨_, _, _, _, _, _, _, _, worker, _, _, _, _, _⟩ := h
      cases worker with
      | none => simp
      | some w => simp [Worker.submit]

/-- Handing out work plans it, classifies at once and dispatches; what comes after that only settles
the phase. -/
theorem pump_eq (idle : h.parsePending = false) :
    ∃ scheduler,
      h.pump =
        { h.planned.dispatch (h.scheduler.plan h.snapshot.size).1.jobs with scheduler } ∧
      Scheduler.SameBooks scheduler
        (h.planned.dispatch (h.scheduler.plan h.snapshot.size).1.jobs).scheduler := by
  unfold pump
  rw [idle]
  dsimp only
  by_cases empty : (h.scheduler.plan h.snapshot.size).1.isEmpty
  · have nothing := empty
    simp only [Plan.isEmpty, Bool.and_eq_true, List.isEmpty_iff] at nothing
    rw [if_neg (by simp), if_pos empty, planned, nothing.1, nothing.2, dispatch_nil]
    exact ⟨_, rfl, ⟨rfl, rfl, rfl, rfl, rfl⟩⟩
  · rw [if_neg (by simp), if_neg empty]
    exact ⟨_, rfl, Scheduler.sameBooks_settlePhase _⟩

/-- Without a tree, the planned jobs are done when they were handed out. -/
theorem pump_of_none (sound : h.scheduler.Sound) (idle : h.parsePending = false)
    (plain : h.basis? = none) :
    ∃ scheduler index outbox, h.pump = { h with scheduler, index, outbox } ∧
      Scheduler.SameBooks scheduler
        { (h.scheduler.plan h.snapshot.size).2 with inFlight := h.scheduler.inFlight } := by
  have planned := Scheduler.planned sound.normal h.snapshot.size
  obtain ⟨scheduler, eq, books⟩ := pump_eq idle
  obtain ⟨outbox, inline⟩ := planned_eq h
  have plain' : h.planned.basis? = none := by
    rw [inline]
    exact plain
  have sound' : h.planned.scheduler.Sound := by
    rw [inline]
    exact sound.plan _
  obtain ⟨scheduler', index', outbox', done, books'⟩ :=
    foldl_finishPlain_eq sound' (h.scheduler.plan h.snapshot.size).1.jobs
  rw [dispatch_of_none plain', done] at eq books
  rw [inline] at eq books'
  refine ⟨scheduler, index', outbox', eq, books.trans (books'.trans ?_)⟩
  refine ⟨rfl, ?_, rfl, rfl, rfl⟩
  dsimp only
  rw [planned.inFlight, List.filter_append, List.filter_eq_self.mpr, List.filter_eq_nil_iff.mpr,
    List.append_nil]
  · intro j hj
    simp only [List.all_eq_true, bne_iff_ne, ne_eq, Classical.not_forall, not_not]
    exact ⟨j, hj, rfl⟩
  · intro j hj
    simp only [List.all_eq_true, bne_iff_ne, ne_eq]
    intro k hk
    exact Nat.ne_of_lt (Nat.lt_of_le_of_lt (sound.issued j hj) (planned.current k hk).2.2.1)

/-- With a tree, the planned jobs are submitted as requests that hold the tree and the rules. -/
theorem pump_of_some {tree : SyntaxTree} {rules : Rules} (idle : h.parsePending = false)
    (basis : h.basis? = some (tree, rules)) :
    ∃ scheduler index outbox,
      h.pump = submit { h with scheduler, index, outbox }
        ((h.scheduler.plan h.snapshot.size).1.jobs.map fun job => ⟨job, tree, rules⟩) ∧
      Scheduler.SameBooks scheduler (h.scheduler.plan h.snapshot.size).2 := by
  obtain ⟨scheduler, eq, books⟩ := pump_eq idle
  obtain ⟨outbox, inline⟩ := planned_eq h
  have basis' : h.planned.basis? = some (tree, rules) := by
    rw [inline]
    exact basis
  obtain ⟨worker, deferred, sent, -⟩ := submit_eq h.planned
    ((h.scheduler.plan h.snapshot.size).1.jobs.map fun job => ⟨job, tree, rules⟩)
  rw [dispatch_of_some basis'] at eq books
  refine ⟨scheduler, h.planned.index, outbox, ?_, ?_⟩
  · rw [eq, inline]
    unfold submit
    dsimp only
    cases h.worker with
    | none => rfl
    | some w => rfl
  · rw [sent, inline] at books
    exact books

/-! ### Parses that are answered -/

/-- The highlighter after a parse. -/
def reparsed (engine : ParsingEngine) (h : Highlighter) (l : Language) : Highlighter :=
  let (outcome, keeper) :=
    l.keeper.reparse (engine l.rules.grammar) h.log.pending h.snapshot
  h.adopt l h.log.pending outcome keeper

/-- The highlighter after the parse that is pending, if one is. -/
def parsed (engine : ParsingEngine) (h : Highlighter) : Highlighter :=
  match h.language with
  | none => h
  | some l => if h.parsePending then h.reparsed engine l else h

/-- The highlighter once its tree was brought up to the text, before it hands out work. -/
def upToDate (engine : ParsingEngine) (h : Highlighter) : Highlighter :=
  { h.parsed engine with
    parseDue := false
    log := (h.parsed engine).log.drain }

theorem reparse_eq (engine : ParsingEngine) (h : Highlighter) (l : Language) :
    h.reparse engine l = (true, h.reparsed engine l) := by
  have answered := l.keeper.attempt_of_answers (engine l.rules.grammar) h.log.pending h.snapshot
  unfold reparse ParsingEngine.toFallible
  dsimp only
  rw [answered]
  rfl

theorem parseIfPending_eq (engine : ParsingEngine) (h : Highlighter) :
    h.parseIfPending engine = (true, h.parsed engine) := by
  unfold parseIfPending parsed
  cases h.language with
  | none => rfl
  | some l =>
      dsimp only
      split
      · exact reparse_eq engine h l
      · rfl

theorem reconcile_eq {engine : ParsingEngine} (attached : h.attached = true) :
    h.reconcile engine = (h.upToDate engine).pump := by
  unfold reconcile
  rw [if_pos attached, parseIfPending_eq]
  rfl

/-- While detached there is nothing to bring up to the text. -/
theorem reconcile_of_detached {engine : FallibleEngine} (detached : h.attached = false) :
    h.reconcile engine = h := by
  unfold reconcile
  rw [if_neg (by simp [detached])]

theorem attached_upToDate (engine : ParsingEngine) (h : Highlighter) :
    (h.upToDate engine).attached = h.attached := by
  unfold upToDate parsed
  cases h.language with
  | none => rfl
  | some l =>
      dsimp only
      split <;> rfl

/-- Bringing the tree up to the text only adds to what is owed, and changes no job. -/
theorem upToDate_eq (engine : ParsingEngine) (h : Highlighter) :
    ∃ language log phase dirty,
      h.upToDate engine =
        { h with
          language, log, scheduler := { h.scheduler with phase, dirty }, parseDue := false } ∧
      (h.scheduler.Sound → Scheduler.Sound { h.scheduler with phase, dirty }) ∧
      ∀ o, h.scheduler.Owes o → Scheduler.Owes { h.scheduler with phase, dirty } o := by
  unfold upToDate parsed
  cases language : h.language with
  | none =>
      exact ⟨h.language, h.log.drain, h.scheduler.phase, h.scheduler.dirty, rfl, id, fun _ => id⟩
  | some l =>
      dsimp only
      split
      · have begun := Scheduler.sameBooks_beginReparse h.scheduler
        exact ⟨_, _, _, _, rfl, fun sound => sound.beginReparse.request _,
          fun o owed => Scheduler.owes_request.mpr (Or.inl (begun.owes_iff.mpr owed))⟩
      · exact ⟨h.language, h.log.drain, h.scheduler.phase, h.scheduler.dirty, rfl, id, fun _ => id⟩

/-! ### Queueing -/

theorem requeue_of_attached (attached : h.attached = true) (span : Option Span) :
    h.requeue span = { h with scheduler := h.requeued span } := by
  unfold requeue
  rw [if_pos attached]

theorem requeue_of_detached (detached : h.attached = false) (span : Option Span) :
    h.requeue span = h := by
  unfold requeue
  rw [if_neg (by simp [detached])]

theorem sound_requeue (sound : h.scheduler.Sound) (span : Option Span) :
    (h.requeue span).scheduler.Sound := by
  unfold requeue
  dsimp only
  split
  · cases span with
    | none => exact sound.invalidateAll _
    | some s => exact sound.request _
  · exact sound

theorem sound_queueAll (sound : h.scheduler.Sound) : h.queueAll.scheduler.Sound := by
  unfold queueAll
  dsimp only
  split
  · exact sound.invalidateAll _
  · exact sound

theorem startOver_of_attached {engine : FallibleEngine} (attached : h.attached = true) :
    h.startOver engine = Highlighter.reconcile engine { h with
      parseDue := true
      scheduler := h.scheduler.invalidateAll h.snapshot.size } := by
  unfold startOver queueAll
  rw [if_pos attached]

/-- While detached there is nothing to queue. -/
theorem startOver_of_detached {engine : FallibleEngine} (detached : h.attached = false) :
    h.startOver engine = { h with parseDue := true } := by
  unfold startOver queueAll
  rw [if_neg (by simp [detached])]
  exact reconcile_of_detached detached

/-! ### Starting over -/

theorem attach_eq (engine : FallibleEngine) (h : Highlighter) :
    h.attach engine =
      if h.attached then h
      else startOver engine
        { h with attached := true, worker := if h.config.background then some .idle else none } := by
  unfold attach attachWith employ
  split
  · rfl
  · cases h.config.background <;> rfl

theorem announceUnclassified_eq (h : Highlighter) (s : Span) :
    ∃ notices, h.announceUnclassified s = { h with outbox := h.outbox ++ notices } := by
  unfold announceUnclassified
  split
  · exact ⟨[], by rw [List.append_nil]⟩
  · exact ⟨_, rfl⟩

/-- A language that is taken has the rules of the current theme and was not parsed yet. -/
theorem languageFor_eq_some {source : Option Grammar} {l : Language}
    (taken : (h.languageFor source).2 = some l) :
    l.rules = .make l.rules.grammar h.theme ∧ l.keeper = .empty := by
  unfold languageFor at taken
  cases source with
  | none => cases taken
  | some g =>
      dsimp only at taken
      unfold TreeKeeper.forGrammar at taken
      cases fits : g.checkAbi with
      | error fault =>
          rw [fits] at taken
          cases taken
      | ok _ =>
          rw [fits] at taken
          cases taken
          exact ⟨rfl, rfl⟩

theorem withLanguage_eq (h : Highlighter) (language : Option Language) :
    ∃ notices, h.withLanguage language =
      { h.clearWork with language, outbox := h.outbox ++ notices } :=
  announceUnclassified_eq { h.clearWork with language } h.snapshot.whole

theorem setLanguage_eq (engine : ParsingEngine) (h : Highlighter) (source : Option Grammar) :
    ∃ language notices,
      (h.setLanguage engine source).2 = startOver engine
        { h.clearWork with language, outbox := h.outbox ++ notices } ∧
      ∀ l, language = some l → l.rules = .make l.rules.grammar h.theme ∧ l.keeper = .empty := by
  obtain ⟨notices, told⟩ := withLanguage_eq h (h.languageFor source).2
  exact ⟨_, notices, congrArg (startOver engine) told, fun _ => languageFor_eq_some⟩

/-- A restart keeps the language, without its tree. -/
theorem restart_eq (h : Highlighter) :
    ∃ notices, h.restart =
      { discardTree (clearWork { h with log := h.log.reset h.snapshot.revision h.snapshot.size })
        with outbox := h.outbox ++ notices } :=
  announceUnclassified_eq (discardTree
    (clearWork { h with log := h.log.reset h.snapshot.revision h.snapshot.size })) h.snapshot.whole

/-! ### Edits -/

/-- What an edit does to the scheduler: it is noted, and the region that the index lost waits. -/
def followEdit (s : Scheduler) (e : Edit) (lost : Option Span) : Scheduler :=
  match lost with
  | none => s.noteEdit e
  | some region => (s.noteEdit e).markDirty region

/-- What the log, the scheduler and the index take from an edit. -/
theorem takeEdit?_eq_some {e : Edit} {h' : Highlighter} (taken : h.takeEdit? e = some h') :
    e.span.start ≤ e.span.stop ∧ e.span.stop ≤ h.log.size ∧
      h' = { h with
        log := ⟨h.log.revision + 1, h.log.size - e.span.length + e.text.size,
          h.log.pending ++ [h.log.stamp e]⟩
        scheduler := followEdit h.scheduler (h.log.stamp e) (h.index.lost e.splice)
        index := h.index.apply e.splice } := by
  unfold takeEdit? at taken
  split at taken
  · cases taken
  · unfold EditLog.record Edit.check at taken
    split at taken
    · cases taken
    · rename_i log recorded
      split at recorded
      · cases recorded
      · rename_i checked
        split at checked
        · cases checked
        · split at checked
          · cases checked
          · cases recorded
            cases taken
            refine ⟨by omega, by omega, ?_⟩
            unfold followEdit
            cases h.index.lost e.splice with
            | none => rfl
            | some region => rfl

theorem followEdit_cases (s : Scheduler) (e : Edit) (lost : Option Span) :
    (followEdit s e lost).inFlight = s.inFlight ∧ (followEdit s e lost).epoch = s.epoch ∧
      (followEdit s e lost).revision = e.revision ∧ (followEdit s e lost).lastJob = s.lastJob ∧
      (followEdit s e lost).liveJobs = (s.noteEdit e).liveJobs := by
  cases lost with
  | none => exact ⟨rfl, rfl, rfl, rfl, rfl⟩
  | some region => exact ⟨rfl, rfl, rfl, rfl, rfl⟩

theorem mem_dirty_followEdit {s : Scheduler} {e : Edit} {lost : Option Span} {o : Nat} :
    o ∈ (followEdit s e lost).dirty ↔
      o ∈ (s.noteEdit e).dirty ∨ ∃ region, lost = some region ∧ o ∈ region := by
  cases lost with
  | none => simp [followEdit]
  | some region =>
      simp only [followEdit, Scheduler.markDirty, SpanSet.mem_insert, Option.some.injEq,
        exists_eq_left']
      exact or_comm

theorem sound_followEdit {s : Scheduler} {e : Edit} (sound : s.Sound)
    (later : s.revision < e.revision) (lost : Option Span) : (followEdit s e lost).Sound := by
  cases lost with
  | none => exact sound.noteEdit later
  | some region => exact (sound.noteEdit later).markDirty region

/-- The edits of a batch that lines up are taken one by one. -/
theorem takeEdits_cons {e : Edit} {rest : List Edit}
    (linedUp : (h.takeEdits (e :: rest)).1 = true) :
    ∃ h', h.takeEdit? e = some h' ∧ h.takeEdits (e :: rest) = h'.takeEdits rest := by
  rw [takeEdits] at linedUp ⊢
  cases taken : h.takeEdit? e with
  | none =>
      rw [taken] at linedUp
      cases linedUp
  | some h' => exact ⟨h', rfl, rfl⟩

/-- A batch that lines up is upright, the index follows every edit of it, and all of its splices
are pending. -/
theorem takeEdits_of_linedUp {edits : List Edit} (linedUp : (h.takeEdits edits).1 = true) :
    (∀ e ∈ edits, e.span.start ≤ e.span.stop) ∧
      (h.takeEdits edits).2.index = edits.foldl (fun x e => x.apply e.splice) h.index ∧
      (h.takeEdits edits).2.log.pending.map Edit.splice =
        h.log.pending.map Edit.splice ++ edits.map Edit.splice := by
  induction edits generalizing h with
  | nil => exact ⟨nofun, rfl, (List.append_nil _).symm⟩
  | cons e rest ih =>
      obtain ⟨h', taken, eq⟩ := takeEdits_cons linedUp
      rw [eq] at linedUp ⊢
      obtain ⟨upright, index, pending⟩ := ih linedUp
      obtain ⟨own, -, rfl⟩ := takeEdit?_eq_some taken
      refine ⟨List.forall_mem_cons.mpr ⟨own, upright⟩, index, ?_⟩
      rw [pending, List.map_append, List.append_assoc]
      rfl

/-- What the taking of each edit keeps, the taking of a batch keeps. -/
theorem takeEdits_keeps {P : Highlighter → Prop} {edits : List Edit}
    (step : ∀ h e h', h.takeEdit? e = some h' → P h → P h') (start : P h) :
    P (h.takeEdits edits).2 := by
  induction edits generalizing h with
  | nil => exact start
  | cons e rest ih =>
      unfold takeEdits
      cases taken : h.takeEdit? e with
      | none => exact start
      | some h' => exact ih (step h e h' taken start)

/-- Edits change the log, the scheduler and the index alone, and no job leaves the books. -/
theorem takeEdits_eq (h : Highlighter) (edits : List Edit) :
    ∃ log scheduler index, (h.takeEdits edits).2 = { h with log, scheduler, index } ∧
      scheduler.inFlight = h.scheduler.inFlight ∧ scheduler.lastJob = h.scheduler.lastJob ∧
      (h.index = .empty → index = .empty) := by
  refine takeEdits_keeps (P := fun x => ∃ log scheduler index,
    x = { h with log, scheduler, index } ∧ scheduler.inFlight = h.scheduler.inFlight ∧
      scheduler.lastJob = h.scheduler.lastJob ∧ (h.index = .empty → index = .empty))
    (fun x e x' taken kept => ?_) ⟨h.log, h.scheduler, h.index, rfl, rfl, rfl, id⟩
  obtain ⟨log, scheduler, index, rfl, jobs, last, empty⟩ := kept
  obtain ⟨-, -, rfl⟩ := takeEdit?_eq_some taken
  obtain ⟨inFlight, -, -, lastJob, -⟩ :=
    followEdit_cases scheduler (log.stamp e) (index.lost e.splice)
  refine ⟨_, _, _, rfl, inFlight.trans jobs, lastJob.trans last, fun none => ?_⟩
  dsimp only
  rw [empty none]
  rfl

/-- Whether a batch lines up and what it leaves in the log depends on the log alone. -/
theorem takeEdits_congr {h' : Highlighter} (log : h'.log = h.log) (edits : List Edit) :
    (h'.takeEdits edits).1 = (h.takeEdits edits).1 ∧
      (h'.takeEdits edits).2.log = (h.takeEdits edits).2.log := by
  induction edits generalizing h h' with
  | nil => exact ⟨rfl, log⟩
  | cons e rest ih =>
      unfold takeEdits takeEdit?
      rw [log]
      by_cases next : e.revision ≠ 0 ∧ e.revision ≠ h.log.revision + 1
      · rw [if_pos next, if_pos next]
        exact ⟨rfl, log⟩
      · rw [if_neg next, if_neg next]
        cases h.log.record e with
        | error fault => exact ⟨rfl, log⟩
        | ok recorded => exact ih rfl

theorem follow_of_inSync {snapshot : Snapshot} {edits : List Edit}
    (linedUp : (h.takeEdits edits).1 = true)
    (agrees : (h.takeEdits edits).2.agreesWith snapshot = true) :
    h.follow snapshot edits = { (h.takeEdits edits).2 with
      snapshot
      parseDue := true
      log := if (h.takeEdits edits).2.attached then (h.takeEdits edits).2.log
        else (h.takeEdits edits).2.log.drain } := by
  unfold follow
  simp [linedUp, agrees]

/-- A batch that does not lead to the new text is forgotten, with all that was known. -/
theorem follow_of_astray {snapshot : Snapshot} {edits : List Edit}
    (astray : ((h.takeEdits edits).1 && (h.takeEdits edits).2.agreesWith snapshot) = false) :
    h.follow snapshot edits = (restart { (h.takeEdits edits).2 with snapshot }).queueAll := by
  unfold follow
  simp only [astray, Bool.not_false, if_true]

/-- An attached highlighter follows a batch that leads to the new text, and then reconciles. -/
theorem textDidChange_of_inSync {engine : FallibleEngine} {snapshot : Snapshot} {edits : List Edit}
    (attached : (h.collectResults.2.takeEdits edits).2.attached = true)
    (linedUp : (h.collectResults.2.takeEdits edits).1 = true)
    (agrees : (h.collectResults.2.takeEdits edits).2.agreesWith snapshot = true) :
    h.textDidChange engine snapshot edits = Highlighter.reconcile engine
      { (h.collectResults.2.takeEdits edits).2 with snapshot, parseDue := true } := by
  unfold textDidChange
  dsimp only
  rw [follow_of_inSync linedUp agrees, if_pos attached]

/-! ### What work leaves alone -/

/-- A view of a highlighter that nothing changes that merging and handing out work do. -/
structure Steady {α : Type} (view : Highlighter → α) : Prop where
  stored : ∀ h index outbox, view { h with index, outbox } = view h
  queued : ∀ h worker deferred, view { h with worker, deferred } = view h
  completed : ∀ h id, view { h with scheduler := (h.scheduler.complete id).2 } = view h
  planned : ∀ h size, view { h with scheduler := (h.scheduler.plan size).2 } = view h
  settled : ∀ h, view { h with scheduler := h.scheduler.settlePhase } = view h

section Steady

variable {α : Type} {view : Highlighter → α}

theorem Steady.merge (steady : Steady view) (h : Highlighter) (s : Span) (runs : List StyleRun) :
    view (h.merge s runs) = view h := by
  obtain ⟨outbox, eq⟩ := merge_eq h s runs
  rw [eq]
  exact steady.stored h _ _

theorem Steady.finish (steady : Steady view) (h : Highlighter) (id : JobId)
    (runs : List StyleRun) : view (h.finish id runs).2 = view h := by
  have completed := steady.completed h id
  unfold Highlighter.finish
  cases answer : h.scheduler.complete id with
  | mk completion scheduler =>
      rw [answer] at completed
      cases completion with
      | merge job => exact (steady.settled _).trans ((steady.merge _ _ _).trans completed)
      | stale job => exact completed
      | unknown => exact completed

theorem view_foldl {β : Type} {f : Highlighter → β → Highlighter}
    (step : ∀ h b, view (f h b) = view h) (l : List β) (h : Highlighter) :
    view (l.foldl f h) = view h := by
  induction l generalizing h with
  | nil => rfl
  | cons b rest ih => exact (ih (f h b)).trans (step h b)

theorem Steady.collectResults (steady : Steady view) (h : Highlighter) :
    view h.collectResults.2 = view h :=
  collectResults_keeps (P := fun x => view x = view h) (steady.queued h _ h.deferred)
    (fun _ _ _ same => (steady.finish _ _ _).trans same)
    fun x _ rest _ same => (steady.finish _ _ _).trans ((steady.queued x x.worker rest).trans same)

theorem Steady.dispatch (steady : Steady view) (h : Highlighter) (jobs : List Job) :
    view (h.dispatch jobs) = view h := by
  cases basis : h.basis? with
  | none =>
      rw [dispatch_of_none basis]
      exact view_foldl (fun h job => steady.finish h job.id _) jobs h
  | some basis' =>
      obtain ⟨worker, deferred, sent, -⟩ := submit_eq h
        (jobs.map fun job => ⟨job, basis'.1, basis'.2⟩)
      rw [dispatch_of_some basis, sent]
      exact steady.queued h worker deferred

theorem Steady.pump (steady : Steady view) (h : Highlighter) : view h.pump = view h := by
  have planned := steady.planned h h.snapshot.size
  have inline : view h.planned = view h :=
    (view_foldl (fun h s => steady.merge h s _) _ _).trans planned
  unfold Highlighter.pump
  split
  · rfl
  · dsimp only
    split
    · exact planned
    · exact (steady.settled _).trans ((steady.dispatch _ _).trans inline)

/-- What is kept as the tree is brought up to the text, is kept however a call ends. -/
theorem Steady.concluded (steady : Steady view) {engine : ParsingEngine}
    (parsed : ∀ h : Highlighter, view (h.upToDate engine) = view h) (x : Ending × Highlighter) :
    view (concluded engine x) = view x.2 := by
  obtain ⟨ending, x⟩ := x
  cases ending with
  | done => rfl
  | pump => exact steady.pump x
  | reconcile =>
      dsimp only [Highlighter.concluded]
      cases attached : x.attached with
      | true =>
          rw [reconcile_eq attached, steady.pump]
          exact parsed x
      | false => rw [reconcile_of_detached attached]

end Steady

/-- All that the rest of the highlighter is about. -/
def setting (h : Highlighter) :
    HighlighterConfig × Theme × Option Language × Snapshot × EditLog × Bool × Bool ×
      Option Revision :=
  (h.config, h.theme, h.language, h.snapshot, h.log, h.attached, h.parseDue, h.degraded)

theorem steady_setting : Steady setting :=
  ⟨fun _ _ _ => rfl, fun _ _ _ => rfl, fun _ _ => rfl, fun _ _ => rfl, fun _ => rfl⟩

theorem sameSetting_of_eq {h' : Highlighter} (same : h'.setting = h.setting) :
    SameSetting h' h := by
  simp only [setting, Prod.mk.injEq] at same
  obtain ⟨config, theme, language, snapshot, log, attached, parseDue, degraded⟩ := same
  exact ⟨config, theme, language, snapshot, log, attached, parseDue, degraded⟩

theorem sameSetting_finish (h : Highlighter) (id : JobId) (runs : List StyleRun) :
    SameSetting (h.finish id runs).2 h :=
  sameSetting_of_eq (steady_setting.finish h id runs)

theorem sameSetting_pump (h : Highlighter) : SameSetting h.pump h :=
  sameSetting_of_eq (steady_setting.pump h)

/-! ### Configuration and text -/

/-- What no merging and no handing out of work changes. -/
def frame (h : Highlighter) : HighlighterConfig × Snapshot :=
  (h.config, h.snapshot)

theorem steady_frame : Steady frame :=
  ⟨fun _ _ _ => rfl, fun _ _ _ => rfl, fun _ _ => rfl, fun _ _ => rfl, fun _ => rfl⟩

theorem frame_upToDate (engine : ParsingEngine) (h : Highlighter) :
    (h.upToDate engine).frame = h.frame := by
  obtain ⟨language, log, phase, dirty, eq, -⟩ := upToDate_eq engine h
  rw [eq]
  rfl

theorem frame_reconcile (engine : ParsingEngine) (h : Highlighter) :
    (h.reconcile engine).frame = h.frame :=
  steady_frame.concluded (frame_upToDate engine) (.reconcile, h)

theorem frame_restart (h : Highlighter) : h.restart.frame = h.frame := by
  obtain ⟨notices, eq⟩ := restart_eq h
  rw [eq]
  rfl

theorem frame_follow (h : Highlighter) (snapshot : Snapshot) (edits : List Edit) :
    (h.follow snapshot edits).frame = (h.config, snapshot) := by
  obtain ⟨log, scheduler, index, eq, -⟩ := takeEdits_eq h edits
  unfold follow
  dsimp only
  split
  · exact (frame_restart _).trans (congrArg (fun x => (x.config, snapshot)) eq)
  · exact congrArg (fun x => (x.config, snapshot)) eq

/-- No call changes the configuration, and only one changes the text. -/
theorem frame_call (engine : ParsingEngine) (h : Highlighter) (c : HighlighterCall) :
    (h.call engine c).frame = (h.config, h.textAfter c) := by
  have dropped : ∀ language, (h.withLanguage language).frame = h.frame := by
    intro language
    obtain ⟨notices, eq⟩ := withLanguage_eq h language
    rw [eq]
    rfl
  have collected := steady_frame.collectResults h
  -- What a call ends with keeps the frame, so only what it changes is left to look at.
  rw [call_eq, steady_frame.concluded (frame_upToDate engine)]
  cases c with
  | attach =>
      dsimp only [delivered, changed]
      split
      · rfl
      · rfl
  | detach =>
      dsimp only [delivered, changed, detach]
      split
      · rfl
      · rfl
  | setLanguage source => exact dropped _
  | setLanguageFrom registry name => exact dropped _
  | textDidChange snapshot edits =>
      exact (frame_follow _ _ _).trans (congrArg (fun f => (f.1, snapshot)) collected)
  | poll => exact collected
  | _ => rfl

theorem snapshot_call (engine : ParsingEngine) (h : Highlighter) (c : HighlighterCall) :
    (h.call engine c).snapshot = h.textAfter c :=
  congrArg Prod.snd (frame_call engine h c)

theorem config_run (engine : ParsingEngine) (h : Highlighter) (calls : List HighlighterCall) :
    (h.run engine calls).config = h.config := by
  induction calls generalizing h with
  | nil => rfl
  | cons c rest ih => exact (ih _).trans (congrArg Prod.fst (frame_call engine h c))

end Highlighter

end Highlighting
