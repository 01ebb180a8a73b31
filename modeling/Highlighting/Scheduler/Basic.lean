import Highlighting.Text.Edit

/-!
The scheduler: which bytes wait to be classified, and which jobs were handed out for them.

A job carries the epoch and the revision at which it was made. The revision moves with every edit,
the epoch whenever categories change their meaning. A job is *live* while both are still the
scheduler's; the result of any other job is stale and is dropped. There is no other cancellation.

The scheduler classifies nothing. `Scheduler.plan` (in `Highlighting.Scheduler.Plan`) splits the
waiting bytes into spans to classify at once and jobs for later, and `Scheduler.complete` says what
to do with the result of a job.
-/

namespace Highlighting

abbrev Epoch := Nat

abbrev JobId := Nat

/-- Limits of the scheduler, in bytes except for `maxInFlight`. -/
structure SchedulerConfig where
  /-- Waiting bytes up to this many are classified at once. -/
  syncThreshold : Nat
  /-- Waiting visible bytes up to this many are classified at once. -/
  visibleBudget : Nat
  /-- The size limit of a job. -/
  jobChunk : Nat
  /-- How many jobs may be outstanding, stale ones included. -/
  maxInFlight : Nat
deriving DecidableEq

namespace SchedulerConfig

def standard : SchedulerConfig :=
  ⟨8 * 1024, 32 * 1024, 64 * 1024, 1⟩

def withSyncThreshold (c : SchedulerConfig) (bytes : Nat) : SchedulerConfig :=
  { c with syncThreshold := bytes }

def withVisibleBudget (c : SchedulerConfig) (bytes : Nat) : SchedulerConfig :=
  { c with visibleBudget := bytes }

/-- Sets the size limit of a job, at least one byte. -/
def withJobChunk (c : SchedulerConfig) (bytes : Nat) : SchedulerConfig :=
  { c with jobChunk := max bytes 1 }

/-- Sets how many jobs may be outstanding, at least one. -/
def withMaxInFlight (c : SchedulerConfig) (jobs : Nat) : SchedulerConfig :=
  { c with maxInFlight := max jobs 1 }

end SchedulerConfig

/-- What the scheduler is busy with. -/
inductive Phase where
  | idle
  /-- Edits arrived and the tree has to follow. -/
  | reparsing
  /-- Bytes wait and no live job is outstanding. -/
  | queuing
  /-- Bytes are being classified. -/
  | querying
  /-- A result is being merged. -/
  | applying
deriving DecidableEq

def Phase.name : Phase → String
  | idle => "Idle"
  | reparsing => "Reparsing"
  | queuing => "Queuing"
  | querying => "Querying"
  | applying => "Applying"

/-- An outstanding request to classify a span. -/
structure Job where
  id : JobId
  epoch : Epoch
  revision : Revision
  span : Span
deriving DecidableEq

/-- What to do with the result of a job. -/
inductive Completion where
  /-- The job is live: merge its result. -/
  | merge (job : Job)
  /-- The job was superseded: drop its result. -/
  | stale (job : Job)
  /-- No such job is outstanding. -/
  | unknown
deriving DecidableEq

structure Scheduler where
  config : SchedulerConfig
  phase : Phase
  epoch : Epoch
  revision : Revision
  /-- The id given out last; ids are never used again. -/
  lastJob : JobId
  /-- The bytes that wait. -/
  dirty : SpanSet
  /-- The outstanding jobs in order of dispatch, stale ones included. -/
  inFlight : List Job
  /-- The part of the document to classify first, if one was named. -/
  visible : Option Span
deriving DecidableEq

namespace Scheduler

def start (config : SchedulerConfig) (revision : Revision) : Scheduler :=
  ⟨config, .idle, 0, revision, 0, .empty, [], none⟩

def isLive (s : Scheduler) (j : Job) : Bool :=
  j.epoch == s.epoch && j.revision == s.revision

def liveJobs (s : Scheduler) : List Job :=
  s.inFlight.filter s.isLive

/-- The spans that live jobs have promised. -/
def promised (s : Scheduler) : List Span :=
  s.liveJobs.map Job.span

/-- Nothing waits and no job is outstanding. -/
def isIdle (s : Scheduler) : Bool :=
  s.dirty.isEmpty && s.inFlight.isEmpty

/-- The phase of a scheduler at rest, as its books give it. -/
def restingPhase (s : Scheduler) : Phase :=
  if s.inFlight.any s.isLive then .querying
  else if s.dirty.isEmpty then .idle
  else .queuing

def settlePhase (s : Scheduler) : Scheduler :=
  { s with phase := s.restingPhase }

/-- Names the part to classify first. An empty one counts as none. -/
def setVisible (s : Scheduler) (visible : Option Span) : Scheduler :=
  { s with visible := visible.filter fun v => !v.isEmpty }

def beginReparse (s : Scheduler) : Scheduler :=
  { s with phase := .reparsing }

/-- Moves to the revision of an edit. Waiting bytes are carried through it, together with those that
live jobs have promised: these jobs are stale from now on. -/
def noteEdit (s : Scheduler) (e : Edit) : Scheduler :=
  { s with
    dirty := (s.dirty.insertAll s.promised).splice e.splice
    revision := e.revision
    phase := .reparsing }

/-- Queues a span and leaves the phase alone. -/
def markDirty (s : Scheduler) (span : Span) : Scheduler :=
  { s with dirty := s.dirty.insert span }

/-- The part of a span that no live job has promised. -/
def unpromised (s : Scheduler) (span : Span) : SpanSet :=
  (SpanSet.empty.insert span).eraseAll s.promised

/-- Queues what no live job has promised of the given spans. -/
def request (s : Scheduler) (spans : List Span) : Scheduler :=
  let dirty := spans.foldl (fun d span => d.insertAll (s.unpromised span).spans) s.dirty
  settlePhase { s with dirty }

/-- Takes job `id` off the books. -/
def complete (s : Scheduler) (id : JobId) : Completion × Scheduler :=
  match s.inFlight.find? (·.id == id) with
  | none => (.unknown, s)
  | some job =>
    let s := { s with inFlight := s.inFlight.eraseP (·.id == id) }
    if s.isLive job then (.merge job, { s with phase := .applying })
    else (.stale job, s.settlePhase)

/-- The result of a live job, or work done at once, was merged. -/
def finishApplying (s : Scheduler) : Scheduler :=
  s.settlePhase

/-- Starts a new epoch with all of a document of `size` bytes waiting. -/
def invalidateAll (s : Scheduler) (size : Nat) : Scheduler :=
  settlePhase { s with epoch := s.epoch + 1, dirty := .ofList [⟨0, size⟩] }

/-- Starts a new epoch at `revision` with nothing waiting and no job outstanding. -/
def reset (s : Scheduler) (revision : Revision) : Scheduler :=
  { s with epoch := s.epoch + 1, revision, dirty := .empty, inFlight := [], phase := .idle }

/-- Forgets the outstanding jobs and queues what the live ones had promised. -/
def requeueInFlight (s : Scheduler) : Scheduler :=
  settlePhase { s with dirty := s.dirty.insertAll s.promised, inFlight := [] }

end Scheduler

end Highlighting
