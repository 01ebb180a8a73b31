import Highlighting.Proofs.Highlighter.Turns

/-!
The phase between calls.

The phase is kept beside the books. In the middle of a call it says what the call is busy with: an
edit sets the phase that asks for a parse, a plan that of classification, a result that of merging.
Every call that does any of this to an attached highlighter ends by handing out work, and that
settles the phase (`Highlighter.rests_pump`). So between calls the phase is the one that the books
give (`Scheduler.Rests`), and no parse is pending (`Highlighter.phase_agrees_with_books`).

While detached nothing settles the phase; an edit leaves one that asks for a parse.
-/

namespace Highlighting

namespace Scheduler

variable {s : Scheduler}

/-- The phase is the one that the books give. -/
def Rests (s : Scheduler) : Prop :=
  s.phase = s.restingPhase

theorem rests_settlePhase (s : Scheduler) : s.settlePhase.Rests :=
  rfl

theorem rests_plan_of_isEmpty {size : Nat} (empty : (s.plan size).1.isEmpty = true) :
    (s.plan size).2.Rests := by
  have settled : (s.plan size).2.phase =
      if (s.plan size).1.isEmpty then (s.plan size).2.restingPhase else .querying := by
    unfold plan
    dsimp only
    split <;> rfl
  rwa [if_pos empty] at settled

/-- A job of the current epoch and revision is outstanding. -/
def Querying (s : Scheduler) : Prop :=
  ∃ j ∈ s.inFlight, j.epoch = s.epoch ∧ j.revision = s.revision

theorem any_isLive : s.inFlight.any s.isLive = true ↔ s.Querying := by
  simp [Querying, isLive]

/-- What the books say of the phase. -/
theorem restingPhase_iff (s : Scheduler) :
    (s.restingPhase = .querying ↔ s.Querying) ∧
      (s.restingPhase = .queuing ↔ ¬s.Querying ∧ s.dirty.isEmpty = false) ∧
      (s.restingPhase = .idle ↔ ¬s.Querying ∧ s.dirty.isEmpty = true) ∧
      s.restingPhase ≠ .reparsing ∧ s.restingPhase ≠ .applying := by
  rw [restingPhase]
  by_cases querying : s.Querying
  · rw [if_pos (any_isLive.mpr querying)]
    simp [querying]
  · rw [if_neg (mt any_isLive.mp querying)]
    cases s.dirty.isEmpty with
    | true => simp [querying]
    | false => simp [querying]

/-- Whatever is outstanding while no job is of the current epoch and revision was superseded. -/
theorem Sound.superseded (sound : s.Sound) (none : ¬s.Querying) {j : Job} (hj : j ∈ s.inFlight) :
    j.epoch < s.epoch ∨ j.revision < s.revision := by
  rcases sound.dated j hj with older | ⟨same, earlier⟩
  · exact Or.inl older
  · right
    exact Nat.lt_of_le_of_ne earlier fun current => none ⟨j, hj, same, current⟩

end Scheduler

namespace Highlighter

variable {h h' : Highlighter} {engine : ParsingEngine}

/-- To hand out work settles the phase, if there is none as well. -/
theorem rests_pump (idle : h.parsePending = false) : h.pump.scheduler.Rests := by
  unfold pump
  rw [idle]
  dsimp only
  split
  · rename_i pending
    cases pending
  · split
    · rename_i empty
      exact Scheduler.rests_plan_of_isEmpty empty
    · exact Scheduler.rests_settlePhase _

/-- While attached the phase is the one that the books give. -/
def AtRest (h : Highlighter) : Prop :=
  h.attached = true → h.scheduler.Rests

theorem AtRest.of_same (rests : h.AtRest) (attached : h'.attached = h.attached)
    (scheduler : h'.scheduler = h.scheduler) : h'.AtRest := by
  intro attached'
  rw [scheduler]
  exact rests (attached ▸ attached')

theorem atRest_of_detached (detached : ¬h.attached = true) : h.AtRest :=
  fun attached => absurd attached detached

theorem atRest_reconcile (engine : ParsingEngine) (h : Highlighter) :
    (h.reconcile engine).AtRest := by
  by_cases attached : h.attached = true
  · rw [reconcile_eq attached]
    intro _
    exact rests_pump (by simp [upToDate, parsePending])
  · rw [reconcile, if_neg attached]
    exact atRest_of_detached attached

/-- Every call leaves the phase settled, or leaves it alone. -/
theorem AtRest.call (rests : h.AtRest) (balanced : h.Balanced) (c : HighlighterCall) :
    (h.call engine c).AtRest := by
  rw [call_eq]
  cases c with
  | attach =>
      dsimp only [delivered, changed]
      split
      · exact rests
      · exact atRest_reconcile engine _
  | detach =>
      dsimp only [delivered, changed, concluded, detach]
      split
      · exact nofun
      · exact rests
  | setVisible visible =>
      dsimp only [delivered, changed]
      split
      · exact fun _ => rests_pump balanced.parsePending_eq_false
      · rename_i detached
        exact atRest_of_detached detached
  | setLanguage | setLanguageFrom | setTheme | textDidChange | invalidate | poll =>
      exact atRest_reconcile engine _
  | workerStep | subscribe | unsubscribe | collect => exact rests.of_same rfl rfl

theorem AtRest.run (rests : h.AtRest) (balanced : h.Balanced) (calls : List HighlighterCall) :
    (h.run engine calls).AtRest := by
  induction calls generalizing h with
  | nil => exact rests
  | cons c rest ih => exact ih (rests.call balanced c) (balanced.turn c).balanced

/-- Between calls of an attached highlighter no parse is pending, and the phase says what is on the
books: that jobs of the current epoch and revision are outstanding, else that bytes wait, else that
neither is so. Who is idle is in the idle phase; in that phase only superseded jobs may be
outstanding. -/
theorem phase_agrees_with_books (engine : ParsingEngine) (snapshot : Snapshot) (theme : Theme)
    (config : HighlighterConfig) (calls : List HighlighterCall) :
    let h := (make snapshot theme config).run engine calls
    let s := h.scheduler
    h.attached = true →
      h.parsePending = false ∧
      (h.phase = .querying ↔ s.Querying) ∧
      (h.phase = .queuing ↔ ¬s.Querying ∧ s.dirty.isEmpty = false) ∧
      (h.phase = .idle ↔ ¬s.Querying ∧ s.dirty.isEmpty = true) ∧
      h.phase ≠ .reparsing ∧ h.phase ≠ .applying ∧
      (h.isIdle = true → h.phase = .idle) ∧
      (h.phase = .idle → ∀ j ∈ s.inFlight, j.epoch < s.epoch ∨ j.revision < s.revision) := by
  intro h s attached
  have start := balanced_make snapshot theme config
  have balanced : h.Balanced := start.run calls
  have idle : h.parsePending = false := balanced.parsePending_eq_false
  have rests : s.Rests := AtRest.run (h := make snapshot theme config) nofun start calls attached
  have phase : h.phase = s.restingPhase := by
    rw [Highlighter.phase, idle]
    exact rests
  obtain ⟨querying, queuing, resting, notReparsing, notApplying⟩ := s.restingPhase_iff
  rw [phase]
  refine ⟨idle, querying, queuing, resting, notReparsing, notApplying, ?_, ?_⟩
  · intro done
    obtain ⟨dirty, none⟩ := books_of_isIdle done
    refine resting.mpr ⟨?_, ?_⟩
    · rintro ⟨j, hj, -⟩
      rw [none] at hj
      cases hj
    · rw [dirty]
      rfl
  · intro done j hj
    exact balanced.ledger.sound.superseded (resting.mp done).1 hj

/-- The text is emptied while a job is at the worker. Nothing is left to classify, but the job goes
on counting as outstanding, so the highlighter is in the idle phase without being idle. -/
theorem phase_with_superseded_job :
    let engine : ParsingEngine := fun _ _ _ => ⟨[⟨⟨0, 2⟩, 0, 0, 0⟩], []⟩
    let calls : List HighlighterCall :=
      [.setLanguage (some ⟨"words", 14, some ⟨["word"], [[]]⟩, [100]⟩), .attach,
        .textDidChange ⟨1, .ofString ""⟩ [⟨1, ⟨0, 3⟩, .ofString ""⟩]]
    ∃ h : Highlighter,
      h = (make ⟨0, .ofString "ab\n"⟩ ⟨[("word", 7)]⟩ ⟨⟨0, 0, 64, 1⟩, 2, true⟩).run engine calls ∧
      h.attached = true ∧ h.isIdle = false ∧ h.scheduler.inFlight = [⟨1, 2, 0, ⟨0, 3⟩⟩] ∧
      h.parsePending = false ∧ h.phase = .idle ∧
      ∀ j ∈ h.scheduler.inFlight,
        j.epoch < h.scheduler.epoch ∨ j.revision < h.scheduler.revision := by
  intro engine calls
  obtain ⟨parsed, -, -, -, -, -, -, superseded⟩ := phase_agrees_with_books engine
    ⟨0, .ofString "ab\n"⟩ ⟨[("word", 7)]⟩ ⟨⟨0, 0, 64, 1⟩, 2, true⟩ calls (by decide +kernel)
  exact ⟨_, rfl, by decide +kernel, by decide +kernel, by decide +kernel, parsed,
    by decide +kernel, superseded (by decide +kernel)⟩

end Highlighter

end Highlighting
