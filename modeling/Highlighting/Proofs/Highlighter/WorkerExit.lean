import Highlighting.Proofs.Highlighter.Convergence
import Highlighting.Proofs.Highlighter.Settling

/-!
Highlighting without its worker.

A worker may fail to start, and it may exit before all requests are answered. Where a call finds the
exit as it collects results, nothing is lost: the spans of the live jobs wait again, all that holds
between calls holds again, and polls classify the rest (`converges_after_exit`).

Where the exit shows only as a job cannot be sent, the jobs that the worker holds stay on the books.
No request is left that answers one of them, so it stays in flight, and polls do not settle
(`stays_in_flight`).
-/

namespace Highlighting

namespace Scheduler

variable {s : Scheduler} {o : Nat}

/-- What live jobs have promised waits again, so nothing is owed less or more. -/
theorem owes_requeueInFlight : s.requeueInFlight.Owes o ↔ s.Owes o := by
  rw [owes_iff (s := s)]
  exact or_iff_left (fun promised => by simp [requeueInFlight, settlePhase, liveJobs] at promised)

/-- New jobs have numbers of their own. -/
theorem id_ne_of_planned (sound : s.Sound) {size : Nat} {j k : Job} (held : j ∈ s.inFlight)
    (new : k ∈ (s.plan size).1.jobs) : k.id ≠ j.id := by
  have later := ((planned sound.normal size).current k new).2.2.1
  exact Nat.ne_of_gt (Nat.lt_of_le_of_lt (sound.issued j held) later)

end Scheduler

namespace Highlighter

variable {h : Highlighter} {engine : ParsingEngine} {j : Job}

/-! ### A worker that does not start -/

theorem worker_upToDate (engine : ParsingEngine) (h : Highlighter) :
    (h.upToDate engine).worker = h.worker := by
  obtain ⟨language, log, phase, dirty, eq, -⟩ := upToDate_eq engine h
  rw [eq]

theorem Prepared.worker_reconcile (prepared : h.Prepared) (alone : h.worker = none) :
    (h.reconcile engine).worker = none := by
  have balanced : (h.upToDate engine).Balanced := prepared.upToDate
  rw [reconcile_eq prepared.attached]
  exact worker_pump balanced.ledger.sound balanced.parsePending_eq_false
    ((worker_upToDate engine h).trans alone)

/-- If no worker can be spawned the error is answered, and highlighting starts without one. -/
theorem Balanced.attachWith_error (balanced : h.Balanced) (engine : ParsingEngine)
    (detached : h.attached = false) (background : h.config.background = true) (text : String) :
    let x := (h.attachWith (.error text) engine).2
    (h.attachWith (.error text) engine).1 = some (.worker text) ∧
      x.Balanced ∧ x.attached = true ∧ x.worker = none ∧
      x.scheduler.config = h.scheduler.config := by
  have start : Startable { h with attached := true, worker := none } :=
    balanced.startable detached nofun fun _ => rfl
  have prepared := start.prepared rfl
  have eq : h.attachWith (.error text) engine =
      (some (.worker text), startOver engine { h with attached := true, worker := none }) := by
    unfold attachWith employ
    rw [if_neg (by simp [detached]), background]
    rfl
  have started : startOver engine { h with attached := true, worker := none } =
      Highlighter.reconcile engine { h with
        attached := true
        worker := none
        parseDue := true
        scheduler := h.scheduler.invalidateAll h.snapshot.size } := rfl
  have limits : (startOver engine { h with attached := true, worker := none }).standing =
      standing { h with attached := true, worker := none } := standing_reconcile _
  rw [eq]
  refine ⟨rfl, ?_, ?_, ?_, congrArg (fun t => t.2.2.1) limits⟩
  · rw [started]
    exact prepared.reconcile
  · rw [started, reconcile_eq rfl]
    exact (sameSetting_pump _).attached.trans (attached_upToDate engine _)
  · rw [started]
    exact prepared.worker_reconcile rfl

/-- Where no worker could be spawned, polls classify the document. -/
theorem settles_without_worker (balanced : h.Balanced) (detached : h.attached = false)
    (background : h.config.background = true) (room : 1 ≤ h.scheduler.config.maxInFlight)
    (text : String) :
    let x := (h.attachWith (.error text) engine).2
    (h.attachWith (.error text) engine).1 = some (.worker text) ∧
      ∀ n, x.load ≤ n → (x.run engine (List.replicate n .poll)).isIdle = true := by
  obtain ⟨fault, balanced', attached, alone, limits⟩ :=
    balanced.attachWith_error engine detached background text
  exact ⟨fault, fun n enough => balanced'.isIdle_polls attached alone (limits ▸ room) enough⟩

/-! ### A worker that is found to have exited -/

/-- With a worker no request is deferred. -/
theorem Queued.deferred_collectAnswers (queued : h.Queued) (present : h.worker ≠ none) :
    h.collectAnswers.2.deferred = [] := by
  rw [collectAnswers_eq]
  exact finishAll_keeps (P := fun x => x.deferred = [])
    (fun a _ x empty => (deferred_finish x _ _).trans empty) (queued.2.2 present)

/-- So the answers of the worker are all that is collected. -/
theorem Queued.collectResults_eq (queued : h.Queued) (present : h.worker ≠ none) :
    h.collectResults = h.collectAnswers := by
  have waiting := queued.deferred_collectAnswers present
  unfold collectResults runDeferred
  dsimp only
  rw [waiting]
  rfl

theorem releaseWorker_of_alone (alone : h.worker = none) : h.releaseWorker.2 = h := by
  unfold releaseWorker
  rw [alone]

theorem Queued.releaseWorker_eq (queued : h.Queued) (present : h.worker ≠ none) :
    h.releaseWorker.2 = { h.collectResults.2 with
      worker := none
      scheduler := h.collectResults.2.scheduler.requeueInFlight } := by
  obtain ⟨w, worker⟩ := Option.ne_none_iff_exists'.mp present
  rw [queued.collectResults_eq present]
  unfold Highlighter.releaseWorker
  rw [worker]

/-- Where no request is left, all jobs may be taken off the books. -/
theorem Ledger.requeueInFlight (ledger : h.Ledger) (waiting : h.deferred = []) :
    Ledger { h with worker := none, scheduler := h.scheduler.requeueInFlight } := by
  have left : outstanding { h with
      worker := none, scheduler := h.scheduler.requeueInFlight } = [] := by
    unfold outstanding
    rw [waiting]
    rfl
  refine ⟨ledger.sound.requeueInFlight, ledger.revision, ledger.inside, nofun, fun r hr => ?_,
    fun w hw => ?_⟩
  · rw [left] at hr
    cases hr
  · cases hw

/-- Releasing the worker keeps what holds between calls. -/
theorem Balanced.releaseWorker (balanced : h.Balanced) (attached : h.attached = true) :
    h.releaseWorker.2.Balanced ∧ SameSetting h.releaseWorker.2 h ∧
      h.releaseWorker.2.worker = none := by
  by_cases alone : h.worker = none
  · rw [releaseWorker_of_alone alone]
    exact ⟨balanced, sameSetting_refl h, alone⟩
  · obtain ⟨collected, same⟩ := balanced.collectResults
    have waiting : h.collectResults.2.deferred = [] := by
      rw [balanced.queued.collectResults_eq alone]
      exact balanced.queued.deferred_collectAnswers alone
    rw [balanced.queued.releaseWorker_eq alone]
    have setting : SameSetting { h.collectResults.2 with
        worker := none
        scheduler := h.collectResults.2.scheduler.requeueInFlight } h :=
      ⟨same.config, same.theme, same.language, same.snapshot, same.log, same.attached,
        same.parseDue, same.degraded⟩
    refine ⟨balanced.of_sameSetting setting (collected.ledger.requeueInFlight waiting)
      ⟨fun _ => rfl, fun _ => ?_, fun present => absurd rfl present⟩ attached, setting, rfl⟩
    dsimp only
    rw [waiting]
    rfl

theorem Queued.config_releaseWorker (queued : h.Queued) :
    h.releaseWorker.2.scheduler.config = h.scheduler.config := by
  by_cases alone : h.worker = none
  · rw [releaseWorker_of_alone alone]
  · rw [queued.releaseWorker_eq alone]
    exact congrArg (fun t => t.2.2.1) (steady_standing.collectResults h)

/-- What was settled is settled once the worker was released, and what its live jobs have promised
waits. -/
theorem Settled.releaseWorker (settled : h.Settled) (balanced : h.Balanced) :
    h.releaseWorker.2.Settled := by
  by_cases alone : h.worker = none
  · rw [releaseWorker_of_alone alone]
    exact settled
  · rw [balanced.queued.releaseWorker_eq alone]
    intro o inside
    exact (settled.collectResults balanced o inside).imp_left Scheduler.owes_requeueInFlight.mpr

/-- What is settled is right where nothing is left to do. -/
theorem Settled.styleAt_of_isIdle (settled : h.Settled) (balanced : h.Balanced)
    (idle : h.isIdle = true) {o : Nat} (inside : o < h.snapshot.size) :
    h.styleAt o = h.categoryAt o := by
  rw [balanced.styleAt_eq,
    (settled o (balanced.size ▸ inside)).resolve_left (not_owes_of_isIdle idle)]
  exact expected_of_drained balanced.drained

theorem honestRun_polls (engine : ParsingEngine) (h : Highlighter) (n : Nat) :
    HonestRun engine h (List.replicate n .poll) := by
  induction n generalizing h with
  | zero => trivial
  | succ n ih => exact ⟨trivial, ih _⟩

/-- A call that finds the worker gone loses nothing: whatever calls follow, each byte waits, or a
live job has promised it, or it reads the category that classification gives it. And polls alone
come to an end, with every byte classified. -/
theorem converges_after_exit (engine : ParsingEngine) (faithful : engine.Faithful)
    (snapshot : Snapshot) (theme : Theme) (config : HighlighterConfig)
    (calls : List HighlighterCall) (honest : HonestRun engine (make snapshot theme config) calls)
    (room : 1 ≤ config.scheduler.maxInFlight) :
    let h := (make snapshot theme config).run engine calls
    let x := h.releaseWorker.2
    h.attached = true →
      (∀ more, HonestRun engine x more →
        let y := x.run engine more
        ∀ o < y.snapshot.size, y.scheduler.Owes o ∨ y.styleAt o = y.categoryAt o) ∧
      ∀ n, x.load ≤ n →
        let y := x.run engine (List.replicate n .poll)
        y.isIdle = true ∧ ∀ o < y.snapshot.size, y.styleAt o = y.categoryAt o := by
  intro h x attached
  have start := balanced_make snapshot theme config
  obtain ⟨empty, treeless⟩ : (make snapshot theme config).Settled ∧
      (make snapshot theme config).Led engine :=
    settled_of_released (start.released rfl) start.drained
  have balanced : h.Balanced := start.run calls
  obtain ⟨settled, led⟩ : h.Settled ∧ h.Led engine := empty.run treeless start faithful honest
  obtain ⟨balanced', same, alone⟩ := balanced.releaseWorker attached
  have settled' : x.Settled := settled.releaseWorker balanced
  have later : ∀ more, HonestRun engine x more → (x.run engine more).Settled := fun more honest =>
    (settled'.run (same.led led) balanced' faithful honest).1
  have limits : x.scheduler.config = config.scheduler :=
    balanced.queued.config_releaseWorker.trans (schedulerConfig_run engine _ calls)
  constructor
  · intro more honest y o inside
    have balanced'' : y.Balanced := balanced'.run more
    rw [balanced''.styleAt_eq, ← expected_of_drained balanced''.drained]
    exact later more honest o (balanced''.size ▸ inside)
  · intro n enough y
    have idle : y.isIdle = true :=
      balanced'.isIdle_polls (same.attached.trans attached) alone (limits ▸ room) enough
    exact ⟨idle, fun o inside =>
      (later _ (honestRun_polls engine x n)).styleAt_of_isIdle (balanced'.run _) idle inside⟩

/-! ### A worker that exits before a job is sent -/

/-- A job is on the books that no request is left for, and no worker is there to answer. -/
structure Orphaned (h : Highlighter) (j : Job) : Prop where
  ledger : h.Ledger
  size : h.log.size = h.snapshot.size
  attached : h.attached = true
  parsed : h.parseDue = false
  alone : h.worker = none
  held : j ∈ h.scheduler.inFlight
  unasked : ∀ r ∈ h.deferred, r.job.id ≠ j.id

theorem Orphaned.isIdle_eq_false (orphaned : h.Orphaned j) : h.isIdle = false := by
  have jobs : h.scheduler.inFlight ≠ [] := List.ne_nil_of_mem orphaned.held
  simp [isIdle, Scheduler.isIdle, jobs]

/-- The oldest deferred request is for another job. -/
theorem Orphaned.collectResults (orphaned : h.Orphaned j) : h.collectResults.2.Orphaned j := by
  refine collectResults_keeps (P := fun x => x.Orphaned j) ?_ ?_ ?_
  · exact { orphaned with
      ledger := orphaned.ledger.withoutAnswers
      alone := by simp [withoutAnswers, orphaned.alone] }
  · intro a ha
    unfold readyAnswers at ha
    rw [orphaned.alone] at ha
    cases ha
  · rintro x r rest waiting ⟨ledger, size, attached, parsed, alone, held, unasked⟩
    rw [waiting] at unasked
    obtain ⟨other, others⟩ := List.forall_mem_cons.mp unasked
    have ledger' := (ledger.of_deferred waiting).finish r.job.id r.answer.runs
    obtain ⟨scheduler, index, outbox, eq, books, -⟩ :=
      finish_eq (h := { x with deferred := rest }) ledger.sound r.job.id r.answer.runs
    rw [eq] at ledger' ⊢
    refine ⟨ledger', size, attached, parsed, alone, ?_, others⟩
    dsimp only
    rw [books.inFlight]
    exact Scheduler.mem_inFlight_without.mpr ⟨held, other.symm⟩

/-- New requests are for new jobs. -/
theorem Orphaned.pump (orphaned : h.Orphaned j) : h.pump.Orphaned j := by
  obtain ⟨ledger, size, attached, parsed, alone, held, unasked⟩ := orphaned
  have idle : h.parsePending = false := by simp [parsePending, parsed]
  have ledger' := ledger.pump size idle
  have planned := Scheduler.planned ledger.sound.normal h.snapshot.size
  cases basis : h.basis? with
  | none =>
      obtain ⟨scheduler, index, outbox, eq, books⟩ := pump_of_none ledger.sound idle basis
      rw [eq] at ledger' ⊢
      refine ⟨ledger', size, attached, parsed, alone, ?_, unasked⟩
      dsimp only
      rw [books.inFlight]
      exact held
  | some basis' =>
      obtain ⟨scheduler, index, outbox, eq, books⟩ := pump_of_some idle basis
      unfold submit at eq
      rw [alone] at eq
      rw [eq] at ledger' ⊢
      refine ⟨ledger', size, attached, parsed, rfl, ?_, fun r hr => ?_⟩
      · dsimp only
        rw [books.inFlight, planned.inFlight]
        exact List.mem_append_left _ held
      · rcases List.mem_append.mp hr with old | new
        · exact unasked r old
        · obtain ⟨k, hk, rfl⟩ := List.mem_map.mp new
          exact Scheduler.id_ne_of_planned ledger.sound held hk

theorem Orphaned.poll (orphaned : h.Orphaned j) : (h.call engine .poll).Orphaned j := by
  obtain ⟨ledger, size, attached, parsed, alone, held, unasked⟩ := orphaned.collectResults
  have idle : h.collectResults.2.parsePending = false := by simp [parsePending, parsed]
  have poll : h.call engine .poll = (h.collectResults.2.upToDate engine).pump :=
    reconcile_eq attached
  rw [poll, upToDate_of_idle idle]
  apply Orphaned.pump
  exact ⟨ledger.of_sameWork ⟨rfl, rfl, rfl, rfl, rfl, rfl, rfl⟩, size, attached, rfl, alone, held,
    unasked⟩

theorem Orphaned.polls (orphaned : h.Orphaned j) (n : Nat) :
    (h.run engine (List.replicate n .poll)).Orphaned j := by
  induction n generalizing h with
  | zero => exact orphaned
  | succ n ih => exact ih orphaned.poll

/-- If a job cannot be sent, all jobs that the worker holds are left behind. -/
theorem Ledger.orphaned_dispatchAtExit (ledger : h.Ledger) (size : h.log.size = h.snapshot.size)
    (attached : h.attached = true) (parsed : h.parseDue = false) (waiting : h.deferred = [])
    (basis : h.basis? ≠ none) {jobs : List Job} (unsent : jobs ≠ [])
    (issued : ∀ k ∈ jobs, k ∈ h.scheduler.inFlight) (held : j ∈ h.scheduler.inFlight)
    (other : ∀ k ∈ jobs, k.id ≠ j.id) : (h.dispatchAtExit jobs).Orphaned j := by
  obtain ⟨⟨tree, rules⟩, basis⟩ := Option.ne_none_iff_exists'.mp basis
  have exit : h.dispatchAtExit jobs = Highlighter.dispatch { h with worker := none } jobs := by
    obtain ⟨job, rest, rfl⟩ := List.exists_cons_of_ne_nil unsent
    unfold dispatchAtExit
    rw [basis]
  have gone : Ledger { h with worker := none, deferred := h.deferred } := by
    refine ledger.of_fewer_requests (fun r hr => ?_) nofun
    exact List.mem_append_left _ ((List.mem_append.mp hr).resolve_right List.not_mem_nil)
  have ledger' := gone.dispatch issued
  rw [exit]
  rw [dispatch_of_some (h := { h with worker := none }) basis] at ledger' ⊢
  refine ⟨ledger', size, attached, parsed, rfl, held, fun r hr => ?_⟩
  rcases List.mem_append.mp hr with old | new
  · rw [waiting] at old
    cases old
  · obtain ⟨k, hk, rfl⟩ := List.mem_map.mp new
    exact other k hk

/-- If a job that cannot be sent shows that the worker has exited, the jobs that the worker holds
stay in flight, and the highlighter does not become idle however often it is polled. -/
theorem stays_in_flight (balanced : h.Balanced) (attached : h.attached = true)
    (present : h.worker ≠ none) (basis : h.basis? ≠ none)
    (unsent : (h.scheduler.plan h.snapshot.size).1.jobs ≠ []) (held : j ∈ h.scheduler.inFlight)
    (n : Nat) :
    let x := h.planned.dispatchAtExit (h.scheduler.plan h.snapshot.size).1.jobs
    let y := run engine { x with scheduler := x.scheduler.finishApplying } (List.replicate n .poll)
    j ∈ y.scheduler.inFlight ∧ y.isIdle = false := by
  intro x y
  have sound := balanced.ledger.sound
  have planned := Scheduler.planned sound.normal h.snapshot.size
  have ledger := balanced.ledger.planned balanced.size
  have exit : x.Orphaned j := by
    obtain ⟨outbox, eq⟩ := planned_eq h
    have eq' : x = dispatchAtExit _ _ := congrArg (fun y => dispatchAtExit y _) eq
    rw [eq']
    rw [eq] at ledger
    have inFlight := planned.inFlight
    refine ledger.orphaned_dispatchAtExit balanced.size attached (balanced.parsed attached).1
      (balanced.queued.2.2 present) basis unsent (fun k hk => ?_) ?_
      fun k hk => Scheduler.id_ne_of_planned sound held hk
    · exact inFlight ▸ List.mem_append_right _ hk
    · exact inFlight ▸ List.mem_append_left _ held
  have left : Orphaned { x with scheduler := x.scheduler.finishApplying } j :=
    { exit with
      ledger := exit.ledger.of_sameBooks (Scheduler.sameBooks_settlePhase _)
      held := exit.held }
  have final : y.Orphaned j := left.polls n
  exact ⟨final.held, final.isIdle_eq_false⟩

/-- Two jobs go out and one is answered. Then the worker exits, which shows as a third job is to be
sent. The second job is never answered. -/
example :
    let engine : ParsingEngine := fun _ _ _ => ⟨[], []⟩
    let h := ((make ⟨0, .ofString "abcdef"⟩ .empty ⟨⟨0, 0, 2, 2⟩, 2, true⟩).run engine
      [.setLanguage (some ⟨"bare", 14, none, []⟩), .attach, .workerStep]).collectResults.2
    let x := h.planned.dispatchAtExit (h.scheduler.plan h.snapshot.size).1.jobs
    x.scheduler.inFlight.map Job.id = [2, 3] ∧ x.deferred.map (·.job.id) = [3] ∧
      (x.run engine (List.replicate 5 .poll)).scheduler.inFlight.map Job.id = [2] := by
  decide +kernel

end Highlighter

end Highlighting
