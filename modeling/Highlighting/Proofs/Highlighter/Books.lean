import Highlighting.Proofs.Highlighter.Run
import Highlighting.Proofs.Tree.Reuse

/-!
The books of a highlighter.

Revisions and lengths are kept in several places: in the snapshot, the edit log, the scheduler and
the tree. `Balanced` says that they agree between any two calls, that the index and the jobs stay
inside the text, and what is released while detached. In the middle of a call the index and the
scheduler follow the log, edit by edit; `Ledger` is what holds then.

A highlighter is ready to hand out work again as soon as no job is live or the tree is that of the
text already (`Prepared`). Each call first makes it so, in its own way, and then reconciles; that
each does is in `Highlighting.Proofs.Highlighter.Turns`.
-/

namespace Highlighting

namespace Highlighter

variable {h h' : Highlighter} {engine : ParsingEngine}

/-! ### In the middle of a call -/

/-- The books vouch for a request: its number was given out, a job of that number on the books is
the one that is asked for, and as long as this job is live the request has the tree and the rules of
the moment. -/
structure Vouched (h : Highlighter) (r : Request) : Prop where
  issued : r.job.id ≤ h.scheduler.lastJob
  own : ∀ j ∈ h.scheduler.inFlight, j.id = r.job.id → j = r.job
  current : r.job ∈ h.scheduler.liveJobs → h.basis? = some (r.tree, r.rules)

/-- Requests stay vouched for as jobs leave the books and new ones come, if none of the jobs that
are live afterwards was dispatched for another tree or other rules. -/
theorem Vouched.mono {r : Request} (vouched : h.Vouched r)
    (last : h.scheduler.lastJob ≤ h'.scheduler.lastJob)
    (jobs : ∀ j ∈ h'.scheduler.inFlight, j ∈ h.scheduler.inFlight ∨ h.scheduler.lastJob < j.id)
    (live : ∀ j ∈ h'.scheduler.liveJobs, j ∈ h.scheduler.inFlight →
      j ∈ h.scheduler.liveJobs ∧ h'.basis? = h.basis?) : h'.Vouched r := by
  have old : ∀ j ∈ h'.scheduler.inFlight, j.id = r.job.id → j ∈ h.scheduler.inFlight := by
    intro j hj same
    apply (jobs j hj).resolve_right
    intro later
    rw [same] at later
    exact Nat.not_lt.mpr vouched.issued later
  refine ⟨Nat.le_trans vouched.issued last, fun j hj same => ?_, fun current => ?_⟩
  · exact vouched.own j (old j hj same) same
  · have before := old r.job (Scheduler.mem_liveJobs.mp current).1 rfl
    obtain ⟨stayed, basis⟩ := live r.job current before
    rw [basis]
    exact vouched.current stayed

/-- What holds at any moment, relative to the revision and length of the log. -/
structure Ledger (h : Highlighter) : Prop where
  sound : h.scheduler.Sound
  revision : h.scheduler.revision = h.log.revision
  inside : h.index.Inside h.log.size
  jobs : ∀ j ∈ h.scheduler.liveJobs, j.span.stop ≤ h.log.size
  vouched : ∀ r ∈ h.outstanding, h.Vouched r
  answered : ∀ w, h.worker = some w → ∀ a ∈ w.answers, a = a.request.answer

/-- Nothing has changed that the ledger reads. -/
structure SameWork (h' h : Highlighter) : Prop where
  language : h'.language = h.language
  revision : h'.log.revision = h.log.revision
  size : h'.log.size = h.log.size
  index : h'.index = h.index
  scheduler : h'.scheduler = h.scheduler
  worker : h'.worker = h.worker
  deferred : h'.deferred = h.deferred

theorem Ledger.of_sameWork (ledger : h.Ledger) (same : SameWork h' h) : h'.Ledger := by
  have outstanding : h'.outstanding = h.outstanding := by
    unfold Highlighter.outstanding
    rw [same.worker, same.deferred]
  have basis : h'.basis? = h.basis? := by
    unfold Highlighter.basis?
    rw [same.language]
  refine ⟨?_, ?_, ?_, ?_, fun r hr => ⟨?_, ?_, ?_⟩, ?_⟩
  · rw [same.scheduler]
    exact ledger.sound
  · rw [same.scheduler, same.revision]
    exact ledger.revision
  · rw [same.index, same.size]
    exact ledger.inside
  · rw [same.scheduler, same.size]
    exact ledger.jobs
  all_goals try rw [outstanding] at hr
  · rw [same.scheduler]
    exact (ledger.vouched r hr).issued
  · rw [same.scheduler]
    exact (ledger.vouched r hr).own
  · rw [same.scheduler, basis]
    exact (ledger.vouched r hr).current
  · rw [same.worker]
    exact ledger.answered

/-- The scheduler took up the same jobs under the same numbers. -/
theorem Ledger.of_sameBooks (ledger : h.Ledger) {scheduler : Scheduler}
    (same : Scheduler.SameBooks scheduler h.scheduler) : Ledger { h with scheduler } := by
  refine ⟨same.sound ledger.sound, same.revision.trans ledger.revision, ledger.inside, ?_, ?_,
    ledger.answered⟩
  · rw [same.liveJobs]
    exact ledger.jobs
  · intro r hr
    refine (ledger.vouched r hr).mono (Nat.le_of_eq same.lastJob.symm) (fun j hj => ?_)
      fun j hj _ => ?_
    · rw [same.inFlight] at hj
      exact Or.inl hj
    · rw [same.liveJobs] at hj
      exact ⟨hj, rfl⟩

theorem Ledger.finish (ledger : h.Ledger) (id : JobId) (runs : List StyleRun) :
    (h.finish id runs).2.Ledger := by
  obtain ⟨scheduler, index, outbox, eq, books, stored⟩ := finish_eq ledger.sound id runs
  rw [eq]
  have removed : Ledger { h with scheduler := h.scheduler.without id, index, outbox } := by
    refine ⟨ledger.sound.without id, ledger.revision, ?_, fun j hj => ?_, fun r hr => ?_,
      ledger.answered⟩
    · rcases stored with ⟨job, live, -, rfl, -⟩ | ⟨-, rfl, -⟩
      · exact ledger.inside.store (ledger.jobs job live) runs
      · exact ledger.inside
    · exact ledger.jobs j (Scheduler.mem_liveJobs_without.mp hj).1
    · refine (ledger.vouched r hr).mono (Nat.le_refl _) (fun j hj => ?_) fun j hj _ => ?_
      · exact Or.inl (Scheduler.mem_inFlight_without.mp hj).1
      · exact ⟨(Scheduler.mem_liveJobs_without.mp hj).1, rfl⟩
  exact removed.of_sameBooks books

/-- Requests may leave the queues. -/
theorem Ledger.of_fewer_requests (ledger : h.Ledger) {worker : Option Worker}
    {deferred : List Request}
    (fewer : ∀ r ∈ outstanding { h with worker, deferred }, r ∈ h.outstanding)
    (answered : ∀ w, worker = some w → ∀ a ∈ w.answers, a = a.request.answer) :
    Ledger { h with worker, deferred } := by
  refine ⟨ledger.sound, ledger.revision, ledger.inside, ledger.jobs, fun r hr => ?_, answered⟩
  have vouched := ledger.vouched r (fewer r hr)
  exact ⟨vouched.issued, vouched.own, vouched.current⟩

theorem Ledger.withoutAnswers (ledger : h.Ledger) : h.withoutAnswers.Ledger := by
  refine ledger.of_fewer_requests (fun r hr => ?_) fun w hw a ha => ?_
  · unfold outstanding at hr ⊢
    cases worker : h.worker with
    | none =>
        rw [worker] at hr
        exact hr
    | some w =>
        rw [worker] at hr
        exact (List.mem_append.mp hr).elim (List.mem_append_left _)
          fun asked => List.mem_append_right _ (List.mem_append_right _ asked)
  · obtain ⟨v, -, rfl⟩ := Option.map_eq_some_iff.mp hw
    cases ha

theorem Ledger.of_deferred (ledger : h.Ledger) {r : Request} {rest : List Request}
    (waiting : h.deferred = r :: rest) : Ledger { h with deferred := rest } := by
  refine ledger.of_fewer_requests (fun q hq => ?_) ledger.answered
  unfold outstanding at hq ⊢
  rw [waiting]
  exact (List.mem_append.mp hq).elim
    (fun waits => List.mem_append_left _ (List.mem_cons_of_mem _ waits))
    (List.mem_append_right _)

theorem Vouched.finish {r : Request} (vouched : h.Vouched r) (sound : h.scheduler.Sound)
    (id : JobId) (runs : List StyleRun) : (h.finish id runs).2.Vouched r := by
  obtain ⟨scheduler, index, outbox, eq, books, -⟩ := finish_eq sound id runs
  rw [eq]
  apply vouched.mono
  · exact Nat.le_of_eq books.lastJob.symm
  · intro j hj
    rw [books.inFlight] at hj
    exact Or.inl (Scheduler.mem_inFlight_without.mp hj).1
  · intro j hj _
    rw [books.liveJobs] at hj
    exact ⟨(Scheduler.mem_liveJobs_without.mp hj).1, rfl⟩

/-- What the worker has ready is vouched for until it is taken. -/
theorem Ledger.vouched_readyAnswers (ledger : h.Ledger) :
    ∀ a ∈ h.readyAnswers, h.withoutAnswers.Vouched a.request ∧ a = a.request.answer := by
  intro a ha
  unfold readyAnswers at ha
  split at ha
  · cases ha
  · rename_i w worker
    have mem : a.request ∈ h.outstanding := by
      unfold outstanding
      rw [worker]
      exact List.mem_append_right _ (List.mem_append_left _ (List.mem_map_of_mem ha))
    obtain ⟨issued, own, current⟩ := ledger.vouched _ mem
    exact ⟨⟨issued, own, current⟩, ledger.answered w worker a ha⟩

theorem Ledger.vouched_deferred (ledger : h.Ledger) {r : Request} {rest : List Request}
    (waiting : h.deferred = r :: rest) : Vouched { h with deferred := rest } r := by
  have mem : r ∈ h.outstanding := by
    unfold outstanding
    rw [waiting]
    exact List.mem_append_left _ List.mem_cons_self
  obtain ⟨issued, own, current⟩ := ledger.vouched r mem
  exact ⟨issued, own, current⟩

/-! ### Handing out work -/

theorem Ledger.planned (ledger : h.Ledger) (size : h.log.size = h.snapshot.size) :
    h.planned.Ledger := by
  have planned := Scheduler.planned ledger.sound.normal h.snapshot.size
  obtain ⟨inline, jobs⟩ := planned.stop_le
  obtain ⟨outbox, eq⟩ := planned_eq h
  rw [eq]
  refine ⟨ledger.sound.plan _, planned.revision.trans ledger.revision, ?_, fun j hj => ?_,
    fun r hr => ?_, ledger.answered⟩
  · have stores : ∀ (spans : List Span) (x : StyleIndex), (∀ s ∈ spans, s.stop ≤ h.log.size) →
        x.Inside h.log.size → (spans.foldl (fun x s => x.store s (h.classify s)) x).Inside
          h.log.size := by
      intro spans
      induction spans with
      | nil => exact fun x _ inside => inside
      | cons s rest ih =>
          intro x fits inside
          obtain ⟨first, others⟩ := List.forall_mem_cons.mp fits
          exact ih _ others (inside.store first _)
    refine stores _ _ (fun s hs => ?_) ledger.inside
    rw [size]
    exact inline s hs
  · dsimp only at hj ⊢
    rw [planned.liveJobs] at hj
    rcases List.mem_append.mp hj with old | new
    · exact ledger.jobs j old
    · rw [size]
      exact jobs j new
  · refine (ledger.vouched r hr).mono planned.lastJob (fun j hj => ?_) fun j hj before => ?_
    · rw [planned.inFlight] at hj
      exact (List.mem_append.mp hj).imp_right fun new => (planned.current j new).2.2.1
    · dsimp only at hj
      rw [planned.liveJobs] at hj
      refine ⟨(List.mem_append.mp hj).resolve_right fun new => ?_, rfl⟩
      exact Nat.not_lt.mpr (ledger.sound.issued j before) (planned.current j new).2.2.1

theorem Ledger.finishPlain (ledger : h.Ledger) (job : Job) : (h.finishPlain job).Ledger :=
  ledger.finish _ _

theorem Ledger.submit (ledger : h.Ledger) {rs : List Request}
    (vouched : ∀ r ∈ rs, h.Vouched r) : (h.submit rs).Ledger := by
  have all : ∀ r ∈ (h.submit rs).outstanding, h.Vouched r := fun r hr =>
    (mem_outstanding_submit.mp hr).elim (ledger.vouched r) (vouched r)
  obtain ⟨worker, deferred, eq, answers, -⟩ := submit_eq h rs
  rw [eq] at all ⊢
  refine ⟨ledger.sound, ledger.revision, ledger.inside, ledger.jobs, fun r hr => ?_,
    fun w hw a ha => ?_⟩
  · have := all r hr
    exact ⟨this.issued, this.own, this.current⟩
  · obtain ⟨v, hv, same⟩ := answers w hw
    rw [same] at ha
    exact ledger.answered v hv a ha

theorem Ledger.dispatch (ledger : h.Ledger) {jobs : List Job}
    (issued : ∀ j ∈ jobs, j ∈ h.scheduler.inFlight) : (h.dispatch jobs).Ledger := by
  cases basis : h.basis? with
  | none =>
      rw [dispatch_of_none basis]
      clear issued basis
      induction jobs generalizing h with
      | nil => exact ledger
      | cons j rest ih => exact ih (ledger.finishPlain j)
  | some basis' =>
      rw [dispatch_of_some basis]
      apply ledger.submit
      intro r hr
      obtain ⟨job, hjob, rfl⟩ := List.mem_map.mp hr
      refine ⟨ledger.sound.issued job (issued job hjob), fun j hj same => ?_, fun _ => basis⟩
      exact ledger.sound.eq_of_id_eq hj (issued job hjob) same

theorem Ledger.pump (ledger : h.Ledger) (size : h.log.size = h.snapshot.size)
    (idle : h.parsePending = false) : h.pump.Ledger := by
  have planned := Scheduler.planned ledger.sound.normal h.snapshot.size
  obtain ⟨scheduler, eq, books⟩ := pump_eq idle
  rw [eq]
  refine Ledger.of_sameBooks ((ledger.planned size).dispatch fun j hj => ?_) books
  obtain ⟨outbox, eq⟩ := planned_eq h
  rw [eq, planned.inFlight]
  exact List.mem_append_right _ hj

/-! ### Between calls -/

/-- The tree has the revision and length of the text. -/
def Parsed (h : Highlighter) : Prop :=
  ∀ l, h.language = some l → ∃ t, l.keeper.tree = some t ∧
    t.revision = h.snapshot.revision ∧ t.snapshot.size = h.snapshot.size

/-- Requests are deferred only without a worker, and then they are for the jobs on the books, in
order. -/
def Queued (h : Highlighter) : Prop :=
  (h.config.background = false → h.worker = none) ∧
    (h.worker = none → h.deferred.map Request.job = h.scheduler.inFlight) ∧
    (h.worker ≠ none → h.deferred = [])

/-- No parse of the text has failed. -/
def Unfailed (h : Highlighter) : Prop :=
  (∀ r, h.degraded = some r → r < h.log.revision) ∧
    ∀ l, h.language = some l → l.keeper.failures = none

/-- The text may be parsed again: it was not given up, and where a parse has failed there is no tree
of before. -/
def Retriable (h : Highlighter) : Prop :=
  (∀ r, h.degraded = some r → r < h.log.revision) ∧
    ∀ l, h.language = some l → l.keeper.failures = none ∨ l.keeper.tree = none

theorem Unfailed.retriable (unfailed : h.Unfailed) : h.Retriable :=
  ⟨unfailed.1, fun l language => Or.inl (unfailed.2 l language)⟩

theorem Retriable.isDegraded_eq_false (retriable : h.Retriable)
    (revision : h.log.revision = h.snapshot.revision) : h.isDegraded = false := by
  unfold isDegraded
  rw [← revision, beq_eq_false_iff_ne]
  intro current
  exact Nat.lt_irrefl _ (retriable.1 _ current)

/-- Nothing is held. -/
structure Released (h : Highlighter) : Prop where
  index : h.index = .empty
  tree : h.tree? = none
  jobs : h.scheduler.inFlight = []
  deferred : h.deferred = []
  worker : h.worker = none
  degraded : h.degraded = none

/-- What holds between any two calls. -/
structure Balanced (h : Highlighter) : Prop where
  ledger : h.Ledger
  revision : h.log.revision = h.snapshot.revision
  size : h.log.size = h.snapshot.size
  drained : h.log.pending = []
  rules : ∀ l, h.language = some l → l.rules = .make l.rules.grammar h.theme
  queued : h.Queued
  unfailed : h.Unfailed
  parsed : h.attached = true → h.parseDue = false ∧ h.Parsed
  released : h.attached = false → h.Released

theorem balanced_make (snapshot : Snapshot) (theme : Theme) (config : HighlighterConfig) :
    (make snapshot theme config).Balanced where
  ledger := ⟨Scheduler.sound_start _ _, rfl, StyleIndex.inside_empty _, nofun, nofun, nofun⟩
  revision := rfl
  size := rfl
  drained := rfl
  rules := nofun
  queued := ⟨fun _ => rfl, fun _ => rfl, fun _ => rfl⟩
  unfailed := ⟨nofun, nofun⟩
  parsed := nofun
  released := fun _ => ⟨rfl, rfl, rfl, rfl, rfl, rfl⟩

theorem Balanced.parsePending_eq_false (balanced : h.Balanced) : h.parsePending = false := by
  unfold parsePending
  cases attached : h.attached with
  | false => rfl
  | true =>
      rw [(balanced.parsed attached).1]
      rfl

/-- Where no parse is pending there is nothing to bring up to the text. -/
theorem upToDate_of_idle (idle : h.parsePending = false) :
    h.upToDate engine = { h with parseDue := false, log := h.log.drain } := by
  have same : h.parsed engine = h := by
    unfold Highlighter.parsed
    rw [idle]
    cases h.language with
    | none => rfl
    | some l => rfl
  unfold Highlighter.upToDate
  rw [same]

/-- Between calls the tree is up to the text. -/
theorem Balanced.upToDate_eq_self (balanced : h.Balanced) (attached : h.attached = true) :
    h.upToDate engine = h := by
  have due := (balanced.parsed attached).1
  have drained : h.log.drain = h.log := by
    unfold EditLog.drain
    rw [← balanced.drained]
  rw [upToDate_of_idle balanced.parsePending_eq_false, drained, ← due]

theorem Balanced.styleAt_eq (balanced : h.Balanced) (o : Nat) :
    h.styleAt o = h.index.styleAt o := by
  unfold Highlighter.styleAt
  split
  · rename_i past
    rw [StyleIndex.styleAt_eq_categoryAt, StyleRun.categoryAt_of_not_mem]
    intro r hr mem
    have := (balanced.ledger.inside r hr).2
    have size := balanced.size
    simp only [Span.mem_iff] at mem
    omega
  · rfl

/-- Under the same settings the balance is kept with the ledger and the queue. -/
theorem Balanced.of_sameSetting (balanced : h.Balanced) (same : SameSetting h' h)
    (ledger : h'.Ledger) (queued : h'.Queued) (attached : h.attached = true) : h'.Balanced where
  ledger := ledger
  revision := by
    rw [same.log, same.snapshot]
    exact balanced.revision
  size := by
    rw [same.log, same.snapshot]
    exact balanced.size
  drained := by
    rw [same.log]
    exact balanced.drained
  rules := by
    rw [same.language, same.theme]
    exact balanced.rules
  queued := queued
  unfailed := by
    unfold Unfailed
    rw [same.degraded, same.language, same.log]
    exact balanced.unfailed
  parsed := fun _ => by
    unfold Parsed
    rw [same.parseDue, same.language, same.snapshot]
    exact balanced.parsed attached
  released := fun detached => absurd (attached.symm.trans (same.attached.symm.trans detached)) nofun

theorem collectResults_of_released (released : h.Released) : h.collectResults.2 = h := by
  unfold collectResults collectAnswers
  rw [released.worker]
  dsimp only
  unfold runDeferred
  rw [released.deferred]

/-- The first of the jobs that are numbered in order leaves the others. -/
theorem inFlight_without_first {s : Scheduler} (sound : s.Sound) {job : Job} {rest : List Job}
    (first : s.inFlight = job :: rest) : (s.without job.id).inFlight = rest := by
  have behind := sound.numbered
  rw [first] at behind
  rw [Scheduler.without, first, List.filter_cons_of_neg (by simp)]
  apply List.filter_eq_self.mpr
  intro j hj
  simp only [bne_iff_ne, ne_eq]
  exact Nat.ne_of_gt ((List.pairwise_cons.mp behind).1 j hj)

theorem exists_finish_eq (h : Highlighter) (id : JobId) (runs : List StyleRun) :
    ∃ scheduler index outbox, (h.finish id runs).2 = { h with scheduler, index, outbox } := by
  unfold finish
  split
  · rename_i job scheduler _
    obtain ⟨outbox, eq⟩ := merge_eq { h with scheduler } job.span runs
    dsimp only
    rw [eq]
    exact ⟨_, _, _, rfl⟩
  · exact ⟨_, _, _, rfl⟩
  · exact ⟨_, _, _, rfl⟩

theorem worker_finish (h : Highlighter) (id : JobId) (runs : List StyleRun) :
    (h.finish id runs).2.worker = h.worker := by
  obtain ⟨scheduler, index, outbox, eq⟩ := exists_finish_eq h id runs
  rw [eq]

theorem deferred_finish (h : Highlighter) (id : JobId) (runs : List StyleRun) :
    (h.finish id runs).2.deferred = h.deferred := by
  obtain ⟨scheduler, index, outbox, eq⟩ := exists_finish_eq h id runs
  rw [eq]

theorem Queued.withoutAnswers (queued : h.Queued) : h.withoutAnswers.Queued :=
  ⟨fun off => Option.map_eq_none_iff.mpr (queued.1 off),
    fun alone => queued.2.1 (Option.map_eq_none_iff.mp alone),
    fun present => queued.2.2 fun alone => present (Option.map_eq_none_iff.mpr alone)⟩

theorem Queued.finish {deferred : List Request} (queued : h.Queued) (sound : h.scheduler.Sound)
    {id : JobId} (jobs : h.worker = none →
      deferred.map Request.job = (h.scheduler.without id).inFlight)
    (sent : h.worker ≠ none → deferred = []) (runs : List StyleRun) :
    (Highlighter.finish { h with deferred } id runs).2.Queued := by
  obtain ⟨scheduler, index, outbox, eq, books, -⟩ :=
    finish_eq (h := { h with deferred }) sound id runs
  rw [eq]
  exact ⟨queued.1, fun alone => (jobs alone).trans books.inFlight.symm, sent⟩

/-- Collecting results only takes jobs off the books. -/
theorem Ledger.collectResults (ledger : h.Ledger) (queued : h.Queued) :
    h.collectResults.2.Ledger ∧ h.collectResults.2.Queued ∧
      SameSetting h.collectResults.2 h := by
  -- The worker stays; so where answers of it are taken, no queue is to be kept in step.
  suffices kept : h.collectResults.2.Ledger ∧ h.collectResults.2.Queued ∧
      SameSetting h.collectResults.2 h ∧ (h.collectResults.2.worker = none → h.worker = none) from
    ⟨kept.1, kept.2.1, kept.2.2.1⟩
  refine collectResults_keeps (P := fun x => x.Ledger ∧ x.Queued ∧ SameSetting x h ∧
    (x.worker = none → h.worker = none)) ?_ ?_ ?_
  · exact ⟨ledger.withoutAnswers, queued.withoutAnswers, ⟨rfl, rfl, rfl, rfl, rfl, rfl, rfl, rfl⟩,
      Option.map_eq_none_iff.mp⟩
  · rintro a ha x ⟨ledger', queued', same, alone⟩
    refine ⟨ledger'.finish _ _, queued'.finish ledger'.sound (fun gone => ?_) queued'.2.2 _,
      (sameSetting_finish x _ _).trans same,
      fun gone => alone ((worker_finish x _ _).symm.trans gone)⟩
    unfold readyAnswers at ha
    rw [alone gone] at ha
    cases ha
  · rintro x r rest waiting ⟨ledger', queued', same, alone⟩
    refine ⟨(ledger'.of_deferred waiting).finish _ _,
      queued'.finish ledger'.sound (fun gone => ?_) (fun present => ?_) _,
      (sameSetting_finish _ _ _).trans (SameSetting.trans ?_ same),
      fun gone => alone ((worker_finish { x with deferred := rest } _ _).symm.trans gone)⟩
    · have jobs := queued'.2.1 gone
      rw [waiting, List.map_cons] at jobs
      exact (inFlight_without_first ledger'.sound jobs.symm).symm
    · have empty := queued'.2.2 present
      rw [waiting] at empty
      cases empty
    · exact ⟨rfl, rfl, rfl, rfl, rfl, rfl, rfl, rfl⟩

theorem Balanced.collectResults (balanced : h.Balanced) :
    h.collectResults.2.Balanced ∧ SameSetting h.collectResults.2 h := by
  cases attached : h.attached with
  | false =>
      rw [collectResults_of_released (balanced.released attached)]
      exact ⟨balanced, rfl, rfl, rfl, rfl, rfl, rfl, rfl, rfl⟩
  | true =>
      obtain ⟨ledger, queued, same⟩ := balanced.ledger.collectResults balanced.queued
      exact ⟨balanced.of_sameSetting same ledger queued attached, same⟩

theorem Queued.submit (queued : h.Queued) {scheduler : Scheduler} {jobs : List Job}
    (inFlight : scheduler.inFlight = h.scheduler.inFlight ++ jobs) (index : StyleIndex)
    (outbox : List Notice) (tree : SyntaxTree) (rules : Rules) :
    (submit { h with scheduler, index, outbox } (jobs.map fun job => ⟨job, tree, rules⟩)).Queued := by
  unfold Highlighter.submit
  cases worker : h.worker with
  | some w =>
      have present : h.worker ≠ none := by
        rw [worker]
        exact Option.some_ne_none w
      exact ⟨fun off => absurd (queued.1 off) present, nofun, fun _ => queued.2.2 present⟩
  | none =>
      refine ⟨fun _ => rfl, fun _ => ?_, fun present => absurd rfl present⟩
      dsimp only
      rw [List.map_append, List.map_map, queued.2.1 worker, inFlight]
      exact congrArg _ (List.map_id _)

theorem Queued.pump (queued : h.Queued) (sound : h.scheduler.Sound)
    (idle : h.parsePending = false) : h.pump.Queued := by
  cases basis : h.basis? with
  | none =>
      obtain ⟨scheduler, index, outbox, eq, books⟩ := pump_of_none sound idle basis
      rw [eq]
      exact ⟨queued.1, fun alone => (queued.2.1 alone).trans books.inFlight.symm, queued.2.2⟩
  | some basis' =>
      obtain ⟨scheduler, index, outbox, eq, books⟩ := pump_of_some idle basis
      rw [eq]
      exact queued.submit (books.inFlight.trans (Scheduler.planned sound.normal _).inFlight) _ _ _ _

/-- Handing out work keeps the balance. -/
theorem Balanced.pump (balanced : h.Balanced) (attached : h.attached = true) :
    h.pump.Balanced := by
  have idle := balanced.parsePending_eq_false
  exact balanced.of_sameSetting (sameSetting_pump h) (balanced.ledger.pump balanced.size idle)
    (balanced.queued.pump balanced.ledger.sound idle) attached

/-- Between calls no parse is due, so a poll takes in results and hands out work. -/
theorem Balanced.poll_eq (balanced : h.Balanced) (attached : h.attached = true) :
    h.call engine .poll = h.collectResults.2.pump := by
  obtain ⟨collected, same⟩ := balanced.collectResults
  have attached' := same.attached.trans attached
  refine (reconcile_eq attached').trans ?_
  rw [collected.upToDate_eq_self attached']

theorem Balanced.sameSetting_poll (balanced : h.Balanced) (attached : h.attached = true) :
    SameSetting (h.call engine .poll) h := by
  obtain ⟨collected, same⟩ := balanced.collectResults
  rw [balanced.poll_eq attached]
  exact (sameSetting_pump _).trans same

/-! ### Idle -/

/-- The books of an idle highlighter are empty. -/
theorem books_of_isIdle (idle : h.isIdle = true) :
    h.scheduler.dirty = .empty ∧ h.scheduler.inFlight = [] := by
  simp only [isIdle, Scheduler.isIdle, SpanSet.isEmpty, Bool.and_eq_true, List.isEmpty_iff] at idle
  obtain ⟨-, dirty, jobs⟩ := idle
  exact ⟨congrArg SpanSet.mk dirty, jobs⟩

theorem liveJobs_of_isIdle (idle : h.isIdle = true) : h.scheduler.liveJobs = [] := by
  unfold Scheduler.liveJobs
  rw [(books_of_isIdle idle).2]
  rfl

theorem not_owes_of_isIdle (idle : h.isIdle = true) {o : Nat} : ¬h.scheduler.Owes o := by
  rintro (waits | ⟨j, hj, -⟩)
  · rw [(books_of_isIdle idle).1] at waits
    exact SpanSet.not_mem_empty waits
  · rw [liveJobs_of_isIdle idle] at hj
    cases hj

/-! ### Preparing -/

/-- What a call has to reach before it reconciles: nothing that depends on the tree is live, or the
tree is that of the text. -/
structure Prepared (h : Highlighter) : Prop where
  ledger : h.Ledger
  attached : h.attached = true
  revision : h.log.revision = h.snapshot.revision
  size : h.log.size = h.snapshot.size
  rules : ∀ l, h.language = some l → l.rules = .make l.rules.grammar h.theme
  queued : h.Queued
  retriable : h.Retriable
  ready : h.scheduler.liveJobs = [] ∧ h.parseDue = true ∨ h.log.pending = [] ∧ h.Parsed

theorem Prepared.parsePending_eq_true (prepared : h.Prepared) (due : h.parseDue = true)
    {l : Language} (language : h.language = some l) : h.parsePending = true := by
  have hopeful := prepared.retriable.isDegraded_eq_false prepared.revision
  rw [parsePending, prepared.attached, due, language, hopeful]
  rfl

theorem Ledger.request (ledger : h.Ledger) (spans : List Span) :
    Ledger { h with scheduler := h.scheduler.request spans } := by
  refine ⟨ledger.sound.request spans, ledger.revision, ledger.inside, ledger.jobs, fun r hr => ?_,
    ledger.answered⟩
  exact (ledger.vouched r hr).mono (Nat.le_refl _) (fun j hj => Or.inl hj) fun j hj _ => ⟨hj, rfl⟩

theorem Ledger.reparsed (ledger : h.Ledger) {l : Language} (language : h.language = some l)
    (ready : h.scheduler.liveJobs = [] ∨ h.log.pending = [] ∧ h.Parsed) :
    (h.reparsed engine l).Ledger := by
  unfold Highlighter.reparsed adopt TreeKeeper.reparse
  dsimp only
  refine ⟨?_, ledger.revision, ledger.inside, ledger.jobs, fun r hr => ?_, ledger.answered⟩
  · exact ledger.sound.beginReparse.request _
  · refine (ledger.vouched r hr).mono (Nat.le_refl _) (fun j hj => Or.inl hj) fun j hj _ => ?_
    rcases ready with none | ⟨drained, parsed⟩
    · exact absurd (none ▸ hj) List.not_mem_nil
    · refine ⟨hj, ?_⟩
      obtain ⟨t, tree, revision, size⟩ := parsed l language
      dsimp only [basis?]
      rw [drained, TreeKeeper.outcome_of_current _ tree revision size, language]
      simp [tree]

/-- The tree is brought up to the text. -/
theorem Prepared.upToDate (prepared : h.Prepared) : (h.upToDate engine).Balanced := by
  have ready : h.scheduler.liveJobs = [] ∨ h.log.pending = [] ∧ h.Parsed :=
    prepared.ready.imp_left And.left
  have released : ∀ {P : Prop}, h.attached = false → P := by
    intro P detached
    exact absurd (prepared.attached.symm.trans detached) (by decide)
  unfold Highlighter.upToDate Highlighter.parsed
  cases language : h.language with
  | none =>
      refine ⟨prepared.ledger.of_sameWork ⟨rfl, rfl, rfl, rfl, rfl, rfl, rfl⟩, prepared.revision,
        prepared.size, rfl, prepared.rules, prepared.queued,
        ⟨prepared.retriable.1, fun l hl => ?_⟩, fun _ => ⟨rfl, fun l hl => ?_⟩, released⟩
      all_goals
        rw [language] at hl
        cases hl
  | some l =>
      dsimp only
      split
      · refine ⟨(prepared.ledger.reparsed language ready).of_sameWork
          ⟨rfl, rfl, rfl, rfl, rfl, rfl, rfl⟩, prepared.revision,
          prepared.size, rfl, fun l' hl => ?_, prepared.queued,
          ⟨prepared.retriable.1, fun l' hl => ?_⟩, fun _ => ⟨rfl, fun l' hl => ?_⟩, released⟩
        · cases hl
          exact prepared.rules l language
        · cases hl
          exact TreeKeeper.failures_reparse (prepared.retriable.2 l language)
        · cases hl
          exact ⟨_, rfl, TreeKeeper.follows_outcome _ _ _ _⟩
      · rename_i idle
        have parsed : h.log.pending = [] ∧ h.Parsed :=
          prepared.ready.resolve_left fun due => idle (prepared.parsePending_eq_true due.2 language)
        refine ⟨prepared.ledger.of_sameWork ⟨rfl, rfl, rfl, rfl, rfl, rfl, rfl⟩, prepared.revision,
          prepared.size, rfl, prepared.rules, prepared.queued,
          ⟨prepared.retriable.1, fun l' hl => ?_⟩, fun _ => ⟨rfl, parsed.2⟩, released⟩
        -- There is a tree, so no parse has failed since.
        obtain ⟨t, tree, -⟩ := parsed.2 l' hl
        refine (prepared.retriable.2 l' hl).resolve_right ?_
        rw [tree]
        exact Option.some_ne_none t

/-- Whatever a call did, reconciling restores the balance. -/
theorem Prepared.reconcile (prepared : h.Prepared) : (h.reconcile engine).Balanced := by
  rw [reconcile_eq prepared.attached]
  exact prepared.upToDate.pump ((attached_upToDate engine h).trans prepared.attached)

theorem outstanding_of_released (released : h.Released) : h.outstanding = [] := by
  unfold outstanding
  rw [released.deferred, released.worker]
  rfl

/-- While nothing is held, the language may change. -/
theorem Ledger.of_released (ledger : h.Ledger) (released : h.Released)
    (language : Option Language) : Ledger { h with language } := by
  refine ⟨ledger.sound, ledger.revision, ledger.inside, ledger.jobs, fun r hr => ?_,
    ledger.answered⟩
  have mem : r ∈ h.outstanding := hr
  rw [outstanding_of_released released] at mem
  cases mem

/-! ### Starting over -/

/-- A new epoch leaves no job live, so tree and rules may change with it. -/
theorem Ledger.invalidateAll (ledger : h.Ledger) (size : Nat) (language : Option Language) :
    Ledger { h with language, scheduler := h.scheduler.invalidateAll size } := by
  have none := Scheduler.liveJobs_invalidateAll ledger.sound size
  refine ⟨ledger.sound.invalidateAll size, ledger.revision, ledger.inside, fun j hj => ?_,
    fun r hr => ?_, ledger.answered⟩
  · rw [none] at hj
    cases hj
  · refine (ledger.vouched r hr).mono (Nat.le_refl _) (fun j hj => Or.inl hj) fun j hj _ => ?_
    rw [none] at hj
    cases hj

/-- A reset forgets all jobs, so tree, rules and text may change with it. -/
theorem Ledger.reset (ledger : h.Ledger) (log : EditLog) (language : Option Language) :
    Ledger { h with
      log
      language
      index := .empty
      deferred := []
      scheduler := h.scheduler.reset log.revision
      degraded := none } := by
  refine ⟨Scheduler.sound_reset _ _, rfl, StyleIndex.inside_empty _, nofun,
    fun r hr => ⟨?_, nofun, nofun⟩, ledger.answered⟩
  exact (ledger.vouched r (List.mem_append_right _ hr)).issued

/-! ### Edits -/

/-- An edit is followed at once; no job is live after it. -/
theorem Ledger.takeEdit (ledger : h.Ledger) {e : Edit} (taken : h.takeEdit? e = some h') :
    h'.Ledger ∧ h'.scheduler.liveJobs = [] := by
  obtain ⟨upright, fits, rfl⟩ := takeEdit?_eq_some taken
  have later : h.scheduler.revision < (h.log.stamp e).revision := by
    rw [ledger.revision]
    exact Nat.lt_succ_self _
  obtain ⟨inFlight, -, revision, lastJob, live⟩ :=
    followEdit_cases h.scheduler (h.log.stamp e) (h.index.lost e.splice)
  have none := live.trans (Scheduler.liveJobs_noteEdit ledger.sound later)
  refine ⟨⟨sound_followEdit ledger.sound later _, revision, ledger.inside.apply upright fits,
    fun j hj => ?_, fun r hr => ?_, ledger.answered⟩, none⟩
  · rw [none] at hj
    cases hj
  · refine (ledger.vouched r hr).mono (Nat.le_of_eq lastJob.symm) (fun j hj => ?_) fun j hj _ => ?_
    · rw [inFlight] at hj
      exact Or.inl hj
    · rw [none] at hj
      cases hj

/-- A byte that an edit moves was in the text. It reads what it read before, unless it was owed or
its run was dropped; then it waits. -/
theorem Ledger.styleAt_takeEdit (ledger : h.Ledger) {e : Edit} (taken : h.takeEdit? e = some h')
    {o p : Nat} (inside : o < h'.log.size) (moved : e.splice.preimage? o = some p) :
    p < h.log.size ∧ (h'.scheduler.Owes o ∨
      ¬h.scheduler.Owes p ∧ h'.index.styleAt o = h.index.styleAt p) := by
  obtain ⟨upright, fits, rfl⟩ := takeEdit?_eq_some taken
  dsimp only at inside ⊢
  constructor
  · rcases Splice.preimage?_eq_some_iff.mp moved with ⟨left, rfl⟩ | ⟨right, rfl⟩
    · simp only [Edit.splice] at left
      omega
    · simp only [Edit.splice, Span.length] at right inside ⊢
      omega
  · -- What was owed waits at its new place. What was not owed keeps its run or is in the lost
    -- region, which waits as well.
    by_cases owed : h.scheduler.Owes p
    · left
      left
      rw [mem_dirty_followEdit]
      left
      exact (Scheduler.mem_dirty_noteEdit (e := h.log.stamp e) ledger.sound upright).mpr
        (Or.inl ⟨p, owed, moved⟩)
    · rcases StyleIndex.styleAt_apply (x := h.index) upright moved with same | lost
      · exact Or.inr ⟨owed, same⟩
      · left
        left
        rw [mem_dirty_followEdit]
        exact Or.inr lost

/-- A byte that an edit inserts reads nothing. -/
theorem styleAt_takeEdit_fresh {e : Edit} (taken : h.takeEdit? e = some h') {o : Nat}
    (new : e.splice.preimage? o = none) : h'.index.styleAt o = .unclassified := by
  obtain ⟨-, -, rfl⟩ := takeEdit?_eq_some taken
  exact StyleIndex.styleAt_apply_fresh (Splice.preimage?_eq_none_iff.mp new)

theorem Ledger.takeEdits (ledger : h.Ledger) (edits : List Edit) :
    (h.takeEdits edits).2.Ledger ∧
      ((h.takeEdits edits).1 = true → edits ≠ [] →
        (h.takeEdits edits).2.scheduler.liveJobs = []) := by
  induction edits generalizing h with
  | nil => exact ⟨ledger, fun _ edited => absurd rfl edited⟩
  | cons e rest ih =>
      unfold Highlighter.takeEdits
      cases taken : h.takeEdit? e with
      | none => exact ⟨ledger, fun linedUp => absurd linedUp Bool.false_ne_true⟩
      | some h' =>
          obtain ⟨ledger', none⟩ := ledger.takeEdit taken
          obtain ⟨further, live⟩ := ih ledger'
          refine ⟨further, fun linedUp _ => ?_⟩
          cases rest with
          | nil => exact none
          | cons e' rest => exact live linedUp (List.cons_ne_nil _ _)

end Highlighter

end Highlighting
