import Highlighting.Scheduler.Basic

/-!
Planning: how the scheduler hands out the waiting bytes.

Few enough bytes are classified at once, all of them. Otherwise the visible ones are, if they are
few enough. What is left goes out in chunks as long as another job may be outstanding, beginning
with the visible part, then onwards from it, then from the start of the document.
-/

namespace Highlighting

structure Plan where
  /-- Spans to classify at once. -/
  inline : List Span
  /-- New jobs, which are outstanding from now on. -/
  jobs : List Job
deriving DecidableEq

def Plan.isEmpty (p : Plan) : Bool :=
  p.inline.isEmpty && p.jobs.isEmpty

namespace Scheduler

/-- There are waiting bytes, and at most `limit` of them. -/
def fits (limit : Nat) (d : SpanSet) : Bool :=
  !d.isEmpty && d.total ≤ limit

/-- What to classify at once. -/
def inlineSpans (s : Scheduler) : List Span :=
  if fits s.config.syncThreshold s.dirty then s.dirty.spans
  else match s.visible with
    | none => []
    | some v =>
      let urgent := s.dirty.within v
      if fits s.config.visibleBudget urgent then urgent.spans else []

/-- The chunk of at most `limit` bytes that goes out next. It starts at the first waiting byte of
the visible part or behind it, or else at the first waiting byte. -/
def nextChunk? (visible : Option Span) (limit : Nat) (d : SpanSet) : Option Span :=
  let start := (visible.map Span.start).getD 0
  match (d.spans.find? fun r => start < r.stop) <|> d.spans.head? with
  | none => none
  | some r =>
    let start := if r.contains start then start else r.start
    some ⟨start, min r.stop (start + max limit 1)⟩

/-- Cuts up to `count` chunks out of the waiting bytes; answers them with the bytes left over. -/
def cutChunks (visible : Option Span) (limit : Nat) : Nat → SpanSet → List Span × SpanSet
  | 0, d => ([], d)
  | count + 1, d =>
    match nextChunk? visible limit d with
    | none => ([], d)
    | some chunk =>
      let (chunks, rest) := cutChunks visible limit count (d.erase chunk)
      (chunk :: chunks, rest)

/-- The jobs for some spans, numbered on from the last job. -/
def newJobs (s : Scheduler) (spans : List Span) : List Job :=
  spans.zipIdx.map fun (span, n) => ⟨s.lastJob + n + 1, s.epoch, s.revision, span⟩

/-- Hands out work for a document of `size` bytes. Waiting bytes past its end are forgotten. -/
def plan (s : Scheduler) (size : Nat) : Plan × Scheduler :=
  let s := { s with dirty := s.dirty.truncate size }
  let inline := s.inlineSpans
  let (chunks, dirty) := cutChunks s.visible s.config.jobChunk
    (s.config.maxInFlight - s.inFlight.length) (s.dirty.eraseAll inline)
  let jobs := s.newJobs chunks
  let plan : Plan := ⟨inline, jobs⟩
  let s := { s with dirty, inFlight := s.inFlight ++ jobs, lastJob := s.lastJob + jobs.length }
  (plan, if plan.isEmpty then s.settlePhase else { s with phase := .querying })

end Scheduler

end Highlighting
