import Highlighting.Proofs.Scheduler.Owed

/-!
What the answer to a completion says about the past.

Beside every run of a scheduler goes its record: which jobs were dispatched, which completions were
reported, and when all outstanding jobs were outdated or forgotten. The scheduler itself keeps only
a list of jobs and two counters. `Recounts` says that these answer for the record: a job is
outstanding if since its dispatch it was neither completed nor forgotten, and live if it was not
outdated either. Every call keeps this, so a completion tells the history of its job.

The only thing callers have to promise is that each edit moves the revision on. In particular bytes
may be marked at any time, and a reset may go back to an earlier revision.
-/

namespace Highlighting

/-- What the record of a run keeps of its calls. -/
inductive Mark where
  | dispatched (job : Job)
  | completed (id : JobId)
  /-- An edit arrived, or a new epoch began. -/
  | outdated
  /-- All outstanding jobs were taken off the books. -/
  | forgotten
deriving DecidableEq

namespace Mark

def job? : Mark → Option Job
  | dispatched job => some job
  | _ => none

/-- The job was dispatched, and `after` is the record since then. -/
def Since (past : List Mark) (job : Job) (after : List Mark) : Prop :=
  ∃ before, past = before ++ dispatched job :: after

/-- Nothing has taken the job off the books. -/
def Stands (job : Job) (after : List Mark) : Prop :=
  completed job.id ∉ after ∧ forgotten ∉ after

/-- The jobs of a record in order of dispatch. -/
def jobs (past : List Mark) : List Job :=
  past.filterMap job?

variable {past new after : List Mark} {job : Job}

theorem Since.mem_jobs (since : Since past job after) : job ∈ jobs past := by
  obtain ⟨before, rfl⟩ := since
  simp [jobs, job?]

theorem jobs_append : jobs (past ++ new) = jobs past ++ jobs new :=
  List.filterMap_append

theorem jobs_map_dispatched (dispatches : List Job) :
    jobs (dispatches.map dispatched) = dispatches := by
  rw [jobs, List.filterMap_map]
  exact List.filterMap_some

/-- A dispatch is found in the longer record where it was in the shorter one, or among what is
new. -/
theorem since_append : Since (past ++ new) job after ↔
    (∃ middle, Since past job middle ∧ after = middle ++ new) ∨ Since new job after := by
  constructor
  · rintro ⟨before, cut⟩
    rcases List.append_eq_append_iff.mp cut with ⟨front, rfl, rest⟩ | ⟨back, rfl, rest⟩
    · exact Or.inr ⟨front, rest⟩
    · cases back with
      | nil => exact Or.inr ⟨[], rest.symm⟩
      | cons m back =>
          obtain ⟨rfl, rfl⟩ := List.cons.inj rest
          exact Or.inl ⟨back, ⟨before, rfl⟩, rfl⟩
  · rintro (⟨middle, ⟨before, rfl⟩, rfl⟩ | ⟨front, rfl⟩)
    · exact ⟨before, by simp⟩
    · exact ⟨past ++ front, by simp⟩

theorem not_since_of_jobs_eq_nil (none : jobs new = []) : ¬Since new job after := by
  intro since
  have mem := since.mem_jobs
  rw [none] at mem
  exact List.not_mem_nil mem

/-- Among new dispatches nothing happens but dispatches. -/
theorem Since.of_map_dispatched {dispatches : List Job}
    (since : Since (dispatches.map dispatched) job after) :
    job ∈ dispatches ∧ Stands job after ∧ outdated ∉ after := by
  have mem := since.mem_jobs
  rw [jobs_map_dispatched] at mem
  obtain ⟨before, cut⟩ := since
  have only : ∀ m ∈ after, ∃ j, m = dispatched j := by
    intro m hm
    have inside : m ∈ dispatches.map dispatched := by
      rw [cut]
      exact List.mem_append_right _ (List.mem_cons_of_mem _ hm)
    obtain ⟨j, -, rfl⟩ := List.mem_map.mp inside
    exact ⟨j, rfl⟩
  refine ⟨mem, ⟨fun hm => ?_, fun hm => ?_⟩, fun hm => ?_⟩
  all_goals
    obtain ⟨j, eq⟩ := only _ hm
    cases eq

theorem since_map_dispatched {dispatches : List Job} (mem : job ∈ dispatches) :
    ∃ after, Since (dispatches.map dispatched) job after := by
  obtain ⟨front, back, rfl⟩ := List.append_of_mem mem
  exact ⟨back.map dispatched, front.map dispatched, by simp⟩

theorem stands_append : Stands job (after ++ new) ↔ Stands job after ∧ Stands job new := by
  simp only [Stands, List.mem_append, not_or]
  exact and_and_and_comm

end Mark

namespace Scheduler

open Mark

/-- What a call adds to the record. -/
def marks (s : Scheduler) : SchedulerCall → List Mark
  | .plan size => (s.plan size).1.jobs.map dispatched
  | .complete id => [completed id]
  | .noteEdit _ | .invalidateAll _ => [outdated]
  | .reset _ | .requeueInFlight => [forgotten]
  | .setVisible _ | .beginReparse | .markDirty _ | .request _ | .finishApplying => []

/-- All that callers promise: an edit moves the revision on. -/
def MovesOn (s : Scheduler) : SchedulerCall → Prop
  | .noteEdit e => s.revision < e.revision
  | _ => True

/-- The runs of a scheduler, each with its record. -/
inductive HistoryRun (config : SchedulerConfig) (revision : Revision) :
    Scheduler → List Mark → Prop where
  | start : HistoryRun config revision (start config revision) []
  | call {s : Scheduler} {past : List Mark} (c : SchedulerCall) :
      HistoryRun config revision s past → s.MovesOn c →
      HistoryRun config revision (s.call c) (past ++ s.marks c)

/-- The books answer for the record. -/
structure Recounts (config : SchedulerConfig) (s : Scheduler) (past : List Mark) : Prop where
  sound : s.Sound
  numbered : (jobs past).Pairwise fun i j => i.id < j.id
  issued : ∀ j ∈ jobs past, j.id ≤ s.lastJob
  mem_inFlight : ∀ j, j ∈ s.inFlight ↔ ∃ after, Since past j after ∧ Stands j after
  live : ∀ j ∈ s.inFlight, ∀ after, Since past j after → (j ∈ s.liveJobs ↔ outdated ∉ after)
  room : s.inFlight.length ≤ config.maxInFlight
  limits : s.config = config

variable {s t : Scheduler} {config : SchedulerConfig} {past new : List Mark}

/-! ### What each call keeps -/

theorem recounts_start (config : SchedulerConfig) (revision : Revision) :
    Recounts config (start config revision) [] where
  sound := sound_start config revision
  numbered := List.Pairwise.nil
  issued := nofun
  mem_inFlight := fun j => by simp [start, Since]
  live := nofun
  room := Nat.zero_le _
  limits := rfl

/-- A call that dispatches nothing keeps the numbering; the outstanding jobs have to be those that
stand through what is new. -/
theorem Recounts.append (recounts : Recounts config s past) (sound : t.Sound)
    (none : jobs new = []) (lastJob : t.lastJob = s.lastJob) (same : t.config = s.config)
    (inFlight : ∀ j, j ∈ t.inFlight ↔ j ∈ s.inFlight ∧ Stands j new)
    (live : ∀ j ∈ t.inFlight, (j ∈ t.liveJobs ↔ j ∈ s.liveJobs ∧ outdated ∉ new))
    (room : t.inFlight.length ≤ s.inFlight.length) : Recounts config t (past ++ new) where
  sound := sound
  numbered := by
    rw [jobs_append, none, List.append_nil]
    exact recounts.numbered
  issued := by
    rw [jobs_append, none, List.append_nil, lastJob]
    exact recounts.issued
  mem_inFlight := by
    intro j
    rw [inFlight j, recounts.mem_inFlight j]
    constructor
    · rintro ⟨⟨after, since, stands⟩, still⟩
      exact ⟨after ++ new, since_append.mpr (Or.inl ⟨after, since, rfl⟩),
        stands_append.mpr ⟨stands, still⟩⟩
    · rintro ⟨after, since, stands⟩
      rcases since_append.mp since with ⟨middle, earlier, rfl⟩ | since
      · obtain ⟨stands, still⟩ := stands_append.mp stands
        exact ⟨⟨middle, earlier, stands⟩, still⟩
      · exact absurd since (not_since_of_jobs_eq_nil none)
  live := by
    intro j hj after since
    rcases since_append.mp since with ⟨middle, earlier, rfl⟩ | since
    · rw [live j hj, recounts.live j ((inFlight j).mp hj).1 middle earlier, List.mem_append, not_or]
    · exact absurd since (not_since_of_jobs_eq_nil none)
  room := Nat.le_trans room recounts.room
  limits := same.trans recounts.limits

/-- A call that leaves the outstanding jobs and the live ones alone leaves no mark. -/
theorem Recounts.unmarked (recounts : Recounts config s past) (sound : t.Sound)
    (lastJob : t.lastJob = s.lastJob) (same : t.config = s.config)
    (inFlight : t.inFlight = s.inFlight) (live : t.liveJobs = s.liveJobs) :
    Recounts config t (past ++ []) := by
  refine recounts.append sound rfl lastJob same (fun j => ?_) (fun j _ => ?_) ?_
  · simp [inFlight, Stands]
  · simp [live]
  · rw [inFlight]

/-- From now on no outstanding job is live. -/
theorem Recounts.outdate (recounts : Recounts config s past) (sound : t.Sound)
    (lastJob : t.lastJob = s.lastJob) (same : t.config = s.config)
    (inFlight : t.inFlight = s.inFlight) (live : t.liveJobs = []) :
    Recounts config t (past ++ [outdated]) := by
  refine recounts.append sound rfl lastJob same (fun j => ?_) (fun j _ => ?_) ?_
  · simp [inFlight, Stands]
  · simp [live]
  · rw [inFlight]

/-- From now on no job is outstanding. -/
theorem Recounts.forget (recounts : Recounts config s past) (sound : t.Sound)
    (lastJob : t.lastJob = s.lastJob) (same : t.config = s.config) (inFlight : t.inFlight = []) :
    Recounts config t (past ++ [forgotten]) := by
  refine recounts.append sound rfl lastJob same (fun j => ?_) (fun j hj => ?_) ?_
  · simp [inFlight, Stands]
  · rw [inFlight] at hj
    exact absurd hj List.not_mem_nil
  · simp [inFlight]

theorem Recounts.complete (recounts : Recounts config s past) (id : JobId) :
    Recounts config (s.complete id).2 (past ++ [completed id]) := by
  have same := sameBooks_complete recounts.sound id
  refine recounts.append (same.sound (recounts.sound.without id)) rfl same.lastJob
    (congrArg Prod.fst (limits_complete s id)) (fun j => ?_) (fun j hj => ?_) ?_
  · rw [same.inFlight, mem_inFlight_without]
    simp [Stands]
  · rw [same.inFlight, mem_inFlight_without] at hj
    rw [same.liveJobs, mem_liveJobs_without]
    simp [hj.2]
  · rw [same.inFlight]
    exact List.length_filter_le _ _

/-- The jobs of a plan are the first with their numbers, and outstanding from now on. -/
theorem Recounts.plan (recounts : Recounts config s past) (size : Nat) :
    Recounts config (s.plan size).2 (past ++ (s.plan size).1.jobs.map dispatched) := by
  have planned := planned recounts.sound.normal size
  have stands : ∀ j, Stands j ((s.plan size).1.jobs.map dispatched) := fun j => by simp [Stands]
  have later : ∀ i ∈ jobs past, ∀ j ∈ (s.plan size).1.jobs, i.id < j.id := fun i hi j hj =>
    Nat.lt_of_le_of_lt (recounts.issued i hi) (planned.current j hj).2.2.1
  refine ⟨planned.sound recounts.sound, ?_, ?_, fun j => ?_, fun j hj after since => ?_,
    ?_, (congrArg Prod.fst (limits_plan s size)).trans recounts.limits⟩
  · rw [jobs_append, jobs_map_dispatched]
    exact List.pairwise_append.mpr ⟨recounts.numbered, planned.numbered, later⟩
  · rw [jobs_append, jobs_map_dispatched]
    intro j hj
    rcases List.mem_append.mp hj with old | new
    · exact Nat.le_trans (recounts.issued j old) planned.lastJob
    · exact (planned.current j new).2.2.2
  · rw [planned.inFlight, List.mem_append, recounts.mem_inFlight j]
    constructor
    · rintro (⟨after, since, still⟩ | new)
      · exact ⟨_, since_append.mpr (Or.inl ⟨after, since, rfl⟩),
          stands_append.mpr ⟨still, stands j⟩⟩
      · obtain ⟨after, since⟩ := since_map_dispatched new
        exact ⟨after, since_append.mpr (Or.inr since), since.of_map_dispatched.2.1⟩
    · rintro ⟨after, since, still⟩
      rcases since_append.mp since with ⟨middle, earlier, rfl⟩ | since
      · exact Or.inl ⟨middle, earlier, (stands_append.mp still).1⟩
      · exact Or.inr since.of_map_dispatched.1
  · rw [planned.liveJobs, List.mem_append]
    rcases since_append.mp since with ⟨middle, earlier, rfl⟩ | since
    · -- The numbers of a plan are behind those of the past, so no job of the past is among its jobs.
      have old : j ∉ (s.plan size).1.jobs := fun new =>
        Nat.lt_irrefl _ (later j earlier.mem_jobs j new)
      rw [planned.inFlight, List.mem_append, or_iff_left old] at hj
      rw [or_iff_left old, recounts.live j hj middle earlier]
      simp
    · obtain ⟨new, -, current⟩ := since.of_map_dispatched
      exact iff_of_true (Or.inr new) current
  · have cut := length_jobs_plan_le s size
    have room := recounts.room
    rw [recounts.limits] at cut
    rw [planned.inFlight, List.length_append]
    omega

theorem recounts_call (recounts : Recounts config s past) (c : SchedulerCall)
    (moves : s.MovesOn c) : Recounts config (s.call c) (past ++ s.marks c) := by
  have sound := recounts.sound
  cases c with
  | setVisible visible => exact recounts.unmarked (sound.setVisible visible) rfl rfl rfl rfl
  | beginReparse => exact recounts.unmarked sound.beginReparse rfl rfl rfl rfl
  | noteEdit e =>
      exact recounts.outdate (sound.noteEdit moves) rfl rfl rfl (liveJobs_noteEdit sound moves)
  | markDirty span => exact recounts.unmarked (sound.markDirty span) rfl rfl rfl rfl
  | request spans => exact recounts.unmarked (sound.request spans) rfl rfl rfl rfl
  | plan size => exact recounts.plan size
  | complete id => exact recounts.complete id
  | finishApplying => exact recounts.unmarked sound.settlePhase rfl rfl rfl rfl
  | invalidateAll size =>
      exact recounts.outdate (sound.invalidateAll size) rfl rfl rfl
        (liveJobs_invalidateAll sound size)
  | reset revision => exact recounts.forget (sound_reset s revision) rfl rfl rfl
  | requeueInFlight => exact recounts.forget sound.requeueInFlight rfl rfl rfl

/-! ### Along every run -/

theorem recounts_of_run {revision : Revision} (run : HistoryRun config revision s past) :
    Recounts config s past := by
  induction run with
  | start => exact recounts_start config revision
  | call c _ moves ih => exact recounts_call ih c moves

/-- The jobs whose results would be merged are those that nothing has superseded. -/
theorem Recounts.mem_liveJobs (recounts : Recounts config s past) {job : Job} :
    job ∈ s.liveJobs ↔ ∃ after, Since past job after ∧ Stands job after ∧ outdated ∉ after := by
  constructor
  · intro live
    have mem := (Scheduler.mem_liveJobs.mp live).1
    obtain ⟨after, since, stands⟩ := (recounts.mem_inFlight job).mp mem
    exact ⟨after, since, stands, (recounts.live job mem after since).mp live⟩
  · rintro ⟨after, since, stands, current⟩
    have mem := (recounts.mem_inFlight job).mpr ⟨after, since, stands⟩
    exact (recounts.live job mem after since).mpr current

theorem Recounts.mem_superseded (recounts : Recounts config s past) {job : Job} :
    job ∈ s.inFlight ∧ job ∉ s.liveJobs ↔
      ∃ after, Since past job after ∧ Stands job after ∧ outdated ∈ after := by
  constructor
  · rintro ⟨mem, notLive⟩
    obtain ⟨after, since, stands⟩ := (recounts.mem_inFlight job).mp mem
    have outlived := mt (recounts.live job mem after since).mpr notLive
    exact ⟨after, since, stands, not_not.mp outlived⟩
  · rintro ⟨after, since, stands, superseded⟩
    have mem := (recounts.mem_inFlight job).mpr ⟨after, since, stands⟩
    exact ⟨mem, fun live => (recounts.live job mem after since).mp live superseded⟩

/-- A completion tells the history of its job: whether the job was completed or forgotten since it
was dispatched, and if not, whether it was outdated since. No number is given out twice, and no more
jobs are outstanding than the limit allows. -/
theorem complete_tells_history {revision : Revision} (run : HistoryRun config revision s past) :
    (∀ id,
      ((s.complete id).1 = .unknown ↔ ∀ job after, Since past job after → job.id = id →
        completed id ∈ after ∨ forgotten ∈ after) ∧
      ∀ job,
        ((s.complete id).1 = .stale job ↔ job.id = id ∧ ∃ after, Since past job after ∧
          (completed id ∉ after ∧ forgotten ∉ after) ∧ outdated ∈ after) ∧
        ((s.complete id).1 = .merge job ↔ job.id = id ∧ ∃ after, Since past job after ∧
          (completed id ∉ after ∧ forgotten ∉ after) ∧ outdated ∉ after)) ∧
      ((jobs past).Pairwise fun i j => i.id < j.id) ∧
      s.inFlight.length ≤ config.maxInFlight := by
  have recounts := recounts_of_run run
  refine ⟨fun id => ⟨?_, fun job => ⟨?_, ?_⟩⟩, recounts.numbered, recounts.room⟩
  · rw [complete_eq_unknown_iff recounts.sound]
    constructor
    · rintro absent job after since rfl
      by_contra stands
      rw [not_or] at stands
      exact absent job ((recounts.mem_inFlight job).mpr ⟨after, since, stands⟩) rfl
    · rintro gone job mem rfl
      obtain ⟨after, since, stands⟩ := (recounts.mem_inFlight job).mp mem
      exact not_or.mpr stands (gone job after since rfl)
  · rw [complete_eq_stale_iff recounts.sound, recounts.mem_superseded]
    exact and_congr_right fun own => by rw [← own]; rfl
  · rw [complete_eq_merge_iff recounts.sound, recounts.mem_liveJobs]
    exact and_congr_right fun own => by rw [← own]; rfl

/-- A reset forgets the first two jobs and goes back to revision 0. Of the next two one is reported
and an edit outdates the other, before the last job is dispatched. -/
theorem complete_after_reset_and_edit :
    ∃ (s : Scheduler) (past : List Mark), HistoryRun ⟨0, 0, 10, 2⟩ 7 s past ∧
      (s.complete 2).1 = .unknown ∧ (s.complete 3).1 = .unknown ∧
      (s.complete 4).1 = .stale ⟨4, 1, 0, ⟨10, 20⟩⟩ ∧
      (s.complete 5).1 = .merge ⟨5, 1, 1, ⟨10, 20⟩⟩ ∧
      (∃ after, Since past ⟨4, 1, 0, ⟨10, 20⟩⟩ after ∧
        (completed 4 ∉ after ∧ forgotten ∉ after) ∧ outdated ∈ after) ∧
      s.inFlight.length ≤ 2 := by
  have fresh : HistoryRun ⟨0, 0, 10, 2⟩ 7 _ _ := HistoryRun.start
  have first := (fresh.call (.request [⟨0, 25⟩]) trivial).call (.plan 25) trivial
  have again := (first.call (.reset 0) trivial).call (.request [⟨0, 25⟩]) trivial
  have reported := (again.call (.plan 25) trivial).call (.complete 3) trivial
  have edited := reported.call (.noteEdit ⟨1, ⟨12, 14⟩, .ofString "xyz"⟩) (by decide : 0 < 1)
  have run := edited.call (.plan 26) trivial
  obtain ⟨tells, -, room⟩ := complete_tells_history run
  obtain ⟨-, since⟩ := ((tells 4).2 ⟨4, 1, 0, ⟨10, 20⟩⟩).1.mp (by decide)
  exact ⟨_, _, run, by decide, by decide, by decide, by decide, since, room⟩

end Scheduler

end Highlighting
