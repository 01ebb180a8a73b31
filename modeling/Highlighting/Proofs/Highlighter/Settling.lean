import Highlighting.Proofs.Highlighter.Standing
import Highlighting.Proofs.Highlighter.Turns
import Highlighting.Proofs.Scheduler.Progress

/-!
Polling settles.

Without a background worker each poll runs one deferred request. What is left to do is measured by
`Highlighter.load`: an outstanding job counts once, a waiting byte twice, since it may become a job
of its own. A poll takes the oldest job off the books, and what it hands out moves at least one byte
for each job away from the waiting ones; with no job outstanding there is room for one. So every
poll lessens the load until nothing is left.
-/

namespace Highlighting

namespace Highlighter

variable {h : Highlighter} {engine : ParsingEngine}

/-- What is left to do. -/
def load (h : Highlighter) : Nat :=
  2 * h.scheduler.dirty.total + h.scheduler.inFlight.length

theorem Balanced.isIdle_iff (balanced : h.Balanced) : h.isIdle = true ↔ h.load = 0 := by
  have none := balanced.ledger.sound.normal.total_eq_zero_iff
  simp only [isIdle, balanced.parsePending_eq_false, Scheduler.isIdle, Bool.not_false,
    Bool.true_and, Bool.and_eq_true, ← none, List.isEmpty_iff, load, ← List.length_eq_zero_iff]
  omega

/-- Running the oldest request takes its job off the books. -/
theorem Balanced.collectResults_of_queued (balanced : h.Balanced) (alone : h.worker = none) :
    h.collectResults.2.scheduler.dirty = h.scheduler.dirty ∧
      h.collectResults.2.scheduler.inFlight = h.scheduler.inFlight.tail := by
  have jobs := balanced.queued.2.1 alone
  have taken : h.collectResults.2 = h.runDeferred.2 := by
    unfold Highlighter.collectResults collectAnswers
    rw [alone]
  rw [taken]
  unfold runDeferred
  cases waiting : h.deferred with
  | nil =>
      rw [waiting] at jobs
      rw [← jobs]
      exact ⟨rfl, rfl⟩
  | cons r rest =>
      have ledger := balanced.ledger.of_deferred waiting
      have books := sameBooks_finish ledger.sound r.job.id r.answer.runs
      rw [waiting, List.map_cons] at jobs
      have first := inFlight_without_first balanced.ledger.sound jobs.symm
      have ran : ∀ x : Highlighter, (x.finish r.job.id r.answer.runs).2 =
          (x.finishAll [r.answer]).2 := fun _ => rfl
      dsimp only
      rw [← ran]
      refine ⟨books.dirty, books.inFlight.trans ?_⟩
      rw [← jobs, List.tail_cons]
      exact first

/-- What handing out work leaves to do. -/
theorem load_pump_le (sound : h.scheduler.Sound) (idle : h.parsePending = false) :
    h.pump.load ≤ 2 * (h.scheduler.plan h.snapshot.size).2.dirty.total +
      (h.scheduler.plan h.snapshot.size).1.jobs.length + h.scheduler.inFlight.length := by
  cases basis : h.basis? with
  | none =>
      obtain ⟨scheduler, index, outbox, eq, books⟩ := pump_of_none sound idle basis
      rw [eq, load, books.dirty, books.inFlight]
      dsimp only
      omega
  | some basis' =>
      obtain ⟨scheduler, index, outbox, eq, books⟩ := pump_of_some idle basis
      obtain ⟨worker, deferred, sent, -⟩ := submit_eq { h with scheduler, index, outbox }
        ((h.scheduler.plan h.snapshot.size).1.jobs.map fun job => ⟨job, basis'.1, basis'.2⟩)
      rw [eq, sent, load, books.dirty, books.inFlight,
        (Scheduler.planned sound.normal _).inFlight, List.length_append]
      omega

theorem worker_collectResults (alone : h.worker = none) : h.collectResults.2.worker = none :=
  collectResults_keeps (P := fun x => x.worker = none) (by simp [withoutAnswers, alone])
    (fun _ _ _ same => (worker_finish _ _ _).trans same)
    fun x _ rest _ same => (worker_finish { x with deferred := rest } _ _).trans same

theorem worker_pump (sound : h.scheduler.Sound) (idle : h.parsePending = false)
    (alone : h.worker = none) : h.pump.worker = none := by
  cases basis : h.basis? with
  | none =>
      obtain ⟨scheduler, index, outbox, eq, -⟩ := pump_of_none sound idle basis
      rw [eq]
      exact alone
  | some basis' =>
      obtain ⟨scheduler, index, outbox, eq, -⟩ := pump_of_some idle basis
      obtain ⟨worker, deferred, sent, -, plain⟩ := submit_eq { h with scheduler, index, outbox }
        ((h.scheduler.plan h.snapshot.size).1.jobs.map fun job => ⟨job, basis'.1, basis'.2⟩)
      rw [eq, sent]
      exact (plain alone).1

/-- Polls do not spawn a worker. -/
theorem Balanced.worker_poll (balanced : h.Balanced) (attached : h.attached = true)
    (alone : h.worker = none) : (h.call engine .poll).worker = none := by
  obtain ⟨collected, -⟩ := balanced.collectResults
  rw [balanced.poll_eq attached]
  exact worker_pump collected.ledger.sound collected.parsePending_eq_false
    (worker_collectResults alone)

/-- Every poll lessens the load. -/
theorem Balanced.load_poll (balanced : h.Balanced) (attached : h.attached = true)
    (alone : h.worker = none) (room : 1 ≤ h.scheduler.config.maxInFlight) :
    (h.call engine .poll).load ≤ h.load - 1 := by
  obtain ⟨collected, same⟩ := balanced.collectResults
  obtain ⟨dirty, jobs⟩ := balanced.collectResults_of_queued alone
  have limits : h.collectResults.2.scheduler.config = h.scheduler.config :=
    congrArg (fun t => t.2.2.1) (steady_standing.collectResults h)
  have normal := collected.ledger.sound.normal
  have left := load_pump_le collected.ledger.sound collected.parsePending_eq_false
  have handedOut := Scheduler.length_plan_add_le normal h.collectResults.2.snapshot.size
  rw [dirty] at handedOut
  rw [jobs, List.length_tail] at left
  have load : h.load = 2 * h.scheduler.dirty.total + h.scheduler.inFlight.length := rfl
  rw [balanced.poll_eq attached, load]
  by_cases free : h.scheduler.inFlight.length = 0 ∧ 0 < h.scheduler.dirty.total
  · -- No job leaves the books, so it counts that the plan finds room for one.
    have fewer := Scheduler.total_plan_lt normal h.collectResults.2.snapshot.size
      (by rw [limits, jobs, List.length_tail]; omega) (by rw [dirty]; exact free.2)
    rw [dirty] at fewer
    omega
  · omega

theorem Balanced.load_polls (balanced : h.Balanced) (attached : h.attached = true)
    (alone : h.worker = none) (room : 1 ≤ h.scheduler.config.maxInFlight) (n : Nat) :
    (h.run engine (List.replicate n .poll)).load ≤ h.load - n := by
  induction n generalizing h with
  | zero => exact Nat.le_refl _
  | succ n ih =>
      have poll : (h.call engine .poll).load ≤ h.load - 1 := balanced.load_poll attached alone room
      have same : SameSetting (h.call engine .poll) h := balanced.sameSetting_poll attached
      have limits : (h.call engine .poll).scheduler.config = h.scheduler.config :=
        schedulerConfig_run engine h [.poll]
      have others := ih (balanced.turn .poll).balanced (same.attached.trans attached)
        (balanced.worker_poll attached alone) (limits ▸ room)
      rw [List.replicate_succ]
      change ((h.call engine .poll).run engine (List.replicate n .poll)).load ≤ _
      omega

/-- Where no worker is, twice as many polls as bytes wait and one more for each outstanding job make
an attached highlighter idle. -/
theorem Balanced.isIdle_polls (balanced : h.Balanced) (attached : h.attached = true)
    (alone : h.worker = none) (room : 1 ≤ h.scheduler.config.maxInFlight) {n : Nat}
    (enough : h.load ≤ n) : (h.run engine (List.replicate n .poll)).isIdle = true := by
  have left : (h.run engine (List.replicate n .poll)).load ≤ h.load - n :=
    balanced.load_polls attached alone room n
  rw [(balanced.run _).isIdle_iff]
  exact Nat.le_zero.mp (left.trans (Nat.sub_eq_zero_of_le enough).le)

/-- Polling settles: with room for a job, after twice as many polls as bytes wait and one more for
each outstanding job the highlighter is idle and stays so. In each of these polls the loop that
dispatches jobs ends, after at most as many rounds as bytes wait. -/
theorem polling_settles (engine : ParsingEngine) (snapshot : Snapshot) (theme : Theme)
    (config : HighlighterConfig) (calls : List HighlighterCall) (off : config.background = false)
    (room : 1 ≤ config.scheduler.maxInFlight) :
    let h := (make snapshot theme config).run engine calls
    h.attached = true →
      (∀ n, 2 * h.scheduler.dirty.total + h.scheduler.inFlight.length ≤ n →
        (h.run engine (List.replicate n .poll)).isIdle = true) ∧
      ∀ n,
        let x := (h.run engine (List.replicate n .poll)).collectResults.2
        let s := x.scheduler
        let plan := (s.plan x.snapshot.size).1
        Scheduler.Dispatches s.visible s.config.jobChunk s.config.maxInFlight s.inFlight.length
          ((s.dirty.truncate x.snapshot.size).eraseAll plan.inline) (plan.jobs.map Job.span)
          (s.plan x.snapshot.size).2.dirty ∧
        plan.jobs.length ≤ s.dirty.total := by
  intro h attached
  have balanced : h.Balanced := (balanced_make snapshot theme config).run calls
  have off' : h.config.background = false := by
    rw [config_run]
    exact off
  have room' : 1 ≤ h.scheduler.config.maxInFlight := by
    rw [schedulerConfig_run]
    exact room
  refine ⟨fun n enough => balanced.isIdle_polls attached (balanced.queued.1 off') room' enough,
    fun n => ⟨Scheduler.dispatches_plan _ _, ?_⟩⟩
  · have polled : (h.run engine (List.replicate n .poll)).Balanced := balanced.run _
    have handedOut := Scheduler.length_plan_add_le polled.collectResults.1.ledger.sound.normal
      (h.run engine (List.replicate n .poll)).collectResults.2.snapshot.size
    omega

/-- Of two jobs one is merged when an edit arrives, and the edit supersedes the other. It goes on
counting as outstanding, beside a new one, while five bytes wait. -/
theorem settled_after_superseded_job :
    let engine : ParsingEngine := fun _ _ _ => ⟨[⟨⟨0, 2⟩, 0, 0, 0⟩], []⟩
    let calls : List HighlighterCall :=
      [.setLanguage (some ⟨"words", 14, some ⟨["word"], [[]]⟩, [100]⟩), .attach,
        .textDidChange ⟨1, .ofString "ab\ncxyd\nef\n"⟩ [⟨1, ⟨4, 4⟩, .ofString "xy"⟩]]
    ∃ h : Highlighter,
      h = (make ⟨0, .ofString "ab\ncd\nef\n"⟩ ⟨[("word", 7)]⟩ ⟨⟨0, 0, 3, 2⟩, 2, false⟩).run
        engine calls ∧
      h.scheduler.dirty.total = 5 ∧
      h.scheduler.inFlight = [⟨2, 2, 0, ⟨3, 6⟩⟩, ⟨3, 2, 1, ⟨3, 6⟩⟩] ∧
      (h.run engine (List.replicate 3 .poll)).isIdle = false ∧
      (h.run engine (List.replicate 12 .poll)).isIdle = true := by
  intro engine calls
  obtain ⟨settles, -⟩ := polling_settles engine ⟨0, .ofString "ab\ncd\nef\n"⟩ ⟨[("word", 7)]⟩
    ⟨⟨0, 0, 3, 2⟩, 2, false⟩ calls rfl (by decide) (by cbv)
  exact ⟨_, rfl, by cbv, by cbv, by cbv, settles 12 (by cbv)⟩

end Highlighter

end Highlighting
