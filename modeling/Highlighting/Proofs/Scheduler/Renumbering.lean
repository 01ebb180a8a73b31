import Highlighting.Proofs.Scheduler.Plan

/-!
Numbers of epochs and jobs do not matter.

A scheduler compares epochs and the numbers of jobs, and counts both up; it does nothing else with
them. So a scheduler whose numbers are all ahead by fixed amounts does the same work under other
numbers: each call answers the same up to the numbers, and the numbers stay ahead by as much.
-/

namespace Highlighting

/-- The job under a later number of a later epoch. -/
def Job.renumber (epochs ids : Nat) (j : Job) : Job :=
  { j with id := j.id + ids, epoch := j.epoch + epochs }

def Completion.renumber (epochs ids : Nat) : Completion → Completion
  | merge job => merge (job.renumber epochs ids)
  | stale job => stale (job.renumber epochs ids)
  | unknown => unknown

def Plan.renumber (epochs ids : Nat) (p : Plan) : Plan :=
  ⟨p.inline, p.jobs.map (Job.renumber epochs ids)⟩

theorem Plan.isEmpty_renumber (epochs ids : Nat) (p : Plan) :
    (p.renumber epochs ids).isEmpty = p.isEmpty :=
  congrArg (p.inline.isEmpty && ·) List.isEmpty_map

namespace Scheduler

/-- The scheduler with all its numbers ahead. -/
def renumber (epochs ids : Nat) (s : Scheduler) : Scheduler :=
  { s with
    epoch := s.epoch + epochs
    lastJob := s.lastJob + ids
    inFlight := s.inFlight.map (Job.renumber epochs ids) }

variable {epochs ids : Nat}

theorem isLive_renumber (s : Scheduler) (j : Job) :
    (s.renumber epochs ids).isLive (j.renumber epochs ids) = s.isLive j := by
  have epoch : (j.epoch + epochs == s.epoch + epochs) = (j.epoch == s.epoch) :=
    Bool.eq_iff_iff.mpr (by simp only [beq_iff_eq, Nat.add_right_cancel_iff])
  exact congrArg (· && j.revision == s.revision) epoch

theorem liveJobs_renumber (s : Scheduler) :
    (s.renumber epochs ids).liveJobs = s.liveJobs.map (Job.renumber epochs ids) := by
  simp only [liveJobs, renumber, List.filter_map]
  congr 2
  funext j
  exact isLive_renumber s j

theorem promised_renumber (s : Scheduler) : (s.renumber epochs ids).promised = s.promised := by
  rw [promised, liveJobs_renumber, List.map_map]
  rfl

theorem restingPhase_renumber (s : Scheduler) :
    (s.renumber epochs ids).restingPhase = s.restingPhase := by
  have live : (s.renumber epochs ids).inFlight.any (s.renumber epochs ids).isLive =
      s.inFlight.any s.isLive := by
    simp only [renumber, List.any_map]
    congr 1
    funext j
    exact isLive_renumber s j
  rw [restingPhase, restingPhase, live]
  rfl

theorem settlePhase_renumber (s : Scheduler) :
    (s.renumber epochs ids).settlePhase = s.settlePhase.renumber epochs ids := by
  rw [settlePhase, restingPhase_renumber]
  rfl

theorem request_renumber (s : Scheduler) (spans : List Span) :
    (s.renumber epochs ids).request spans = (s.request spans).renumber epochs ids := by
  have free : (s.renumber epochs ids).unpromised = s.unpromised := by
    funext span
    rw [unpromised, unpromised, promised_renumber]
  rw [request, free]
  exact settlePhase_renumber
    { s with dirty := spans.foldl (fun d t => d.insertAll (s.unpromised t).spans) s.dirty }

theorem complete_renumber (s : Scheduler) (id : JobId) :
    (s.renumber epochs ids).complete (id + ids) =
      ((s.complete id).1.renumber epochs ids, (s.complete id).2.renumber epochs ids) := by
  have own : (fun j : Job => (j.renumber epochs ids).id == id + ids) = fun j => j.id == id := by
    funext j
    simp [Job.renumber]
  have found : (s.renumber epochs ids).inFlight.find? (·.id == id + ids) =
      (s.inFlight.find? (·.id == id)).map (Job.renumber epochs ids) := by
    simp only [renumber, List.find?_map, Function.comp_def, own]
  have left : (s.renumber epochs ids).inFlight.eraseP (·.id == id + ids) =
      (s.inFlight.eraseP (·.id == id)).map (Job.renumber epochs ids) := by
    simp only [renumber, List.eraseP_map, Function.comp_def, own]
  unfold complete
  rw [found]
  cases s.inFlight.find? (·.id == id) with
  | none => rfl
  | some job =>
      have live : isLive { s.renumber epochs ids with
          inFlight := (s.inFlight.eraseP (·.id == id)).map (Job.renumber epochs ids) }
          (job.renumber epochs ids) = s.isLive job := isLive_renumber s job
      have same : isLive { s with inFlight := s.inFlight.eraseP (·.id == id) } job =
          s.isLive job := rfl
      simp only [Option.map_some, left, live, same]
      split
      · rfl
      · refine Prod.ext rfl ?_
        exact settlePhase_renumber { s with inFlight := s.inFlight.eraseP (·.id == id) }

theorem newJobs_renumber (s : Scheduler) (spans : List Span) :
    (s.renumber epochs ids).newJobs spans = (s.newJobs spans).map (Job.renumber epochs ids) := by
  simp only [newJobs, renumber, List.map_map]
  congr 1
  funext p
  obtain ⟨span, n⟩ := p
  have number : s.lastJob + ids + n + 1 = s.lastJob + n + 1 + ids := by
    rw [Nat.add_right_comm s.lastJob ids n, Nat.add_right_comm _ ids 1]
  simp only [Function.comp_apply, Job.renumber, number]

/-- With no job left, a new epoch tells only by its numbers what came before it. -/
theorem invalidateAll_eq_renumber {s t : Scheduler} (limits : s.limits = t.limits)
    (revision : s.revision = t.revision) (epoch : s.epoch = t.epoch + epochs)
    (lastJob : s.lastJob = t.lastJob + ids) (none : s.inFlight = []) (none' : t.inFlight = [])
    (size : Nat) : s.invalidateAll size = (t.invalidateAll size).renumber epochs ids := by
  obtain ⟨_, _, _, _, _, _, _, _⟩ := s
  obtain ⟨_, _, _, _, _, _, _, _⟩ := t
  obtain ⟨rfl, rfl⟩ := Prod.mk.inj limits
  dsimp only at revision epoch lastJob none none'
  subst revision epoch lastJob none none'
  unfold invalidateAll
  rw [← settlePhase_renumber]
  dsimp only [renumber]
  rw [Nat.add_right_comm]
  rfl

/-- The scheduler once some jobs went out and other bytes wait. -/
def takeOn (s : Scheduler) (dirty : SpanSet) (jobs : List Job) : Scheduler :=
  { s with dirty, inFlight := s.inFlight ++ jobs, lastJob := s.lastJob + jobs.length }

theorem takeOn_renumber (s : Scheduler) (dirty : SpanSet) (jobs : List Job) :
    (s.renumber epochs ids).takeOn dirty (jobs.map (Job.renumber epochs ids)) =
      (s.takeOn dirty jobs).renumber epochs ids := by
  simp only [takeOn, renumber, List.map_append, List.length_map]
  rw [Nat.add_right_comm]

/-- The end of a plan, from what is to be classified at once, what goes out and what goes on
waiting. -/
def handOut (s : Scheduler) (inline chunks : List Span) (dirty : SpanSet) : Plan × Scheduler :=
  let jobs := s.newJobs chunks
  let t := s.takeOn dirty jobs
  (⟨inline, jobs⟩,
    if Plan.isEmpty ⟨inline, jobs⟩ then t.settlePhase else { t with phase := .querying })

theorem plan_eq_handOut (s : Scheduler) (size : Nat) :
    let inline := inlineSpans { s with dirty := s.dirty.truncate size }
    let cut := cutChunks s.visible s.config.jobChunk (s.config.maxInFlight - s.inFlight.length)
      ((s.dirty.truncate size).eraseAll inline)
    s.plan size = s.handOut inline cut.1 cut.2 :=
  rfl

theorem handOut_renumber (s : Scheduler) (inline chunks : List Span) (dirty : SpanSet) :
    (s.renumber epochs ids).handOut inline chunks dirty =
      ((s.handOut inline chunks dirty).1.renumber epochs ids,
        (s.handOut inline chunks dirty).2.renumber epochs ids) := by
  have plan : Plan.mk inline ((s.renumber epochs ids).newJobs chunks) =
      Plan.renumber epochs ids ⟨inline, s.newJobs chunks⟩ := by
    rw [newJobs_renumber]
    rfl
  unfold handOut
  dsimp only
  rw [plan, Plan.isEmpty_renumber, newJobs_renumber, takeOn_renumber, settlePhase_renumber,
    apply_ite (renumber epochs ids)]
  rfl

theorem plan_renumber (s : Scheduler) (size : Nat) :
    (s.renumber epochs ids).plan size =
      ((s.plan size).1.renumber epochs ids, (s.plan size).2.renumber epochs ids) := by
  have outstanding : (s.renumber epochs ids).inFlight.length = s.inFlight.length :=
    List.length_map _
  rw [plan_eq_handOut, plan_eq_handOut, outstanding]
  exact handOut_renumber s _ _ _

end Scheduler

end Highlighting
