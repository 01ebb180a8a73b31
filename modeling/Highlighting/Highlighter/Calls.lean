import Highlighting.Highlighter.Basic
import Highlighting.Text.Quoted

/-!
The calls that a text view makes on a highlighter.

Calls that may parse take the parsing engine. Each parses at most once. If the engine answers, the
call leaves an attached highlighter with a tree that follows the text and with work handed out.
-/

namespace Highlighting.Highlighter

/-! ### Attachment -/

/-- Attaches, with the worker that was spawned if jobs go to the background. If none could be, the
error is answered. -/
def employ (spawned : Except String Worker) (h : Highlighter) :
    Option HighlightError × Highlighter :=
  let (fault, worker) : Option HighlightError × Option Worker :=
    if h.config.background then
      match spawned with
      | .ok worker => (none, some worker)
      | .error text => (some (.worker text), none)
    else (none, none)
  (fault, { h with attached := true, worker })

/-- Starts highlighting with the whole document queued. Without a worker each poll runs a job. Does
nothing while attached. -/
def attachWith (spawned : Except String Worker) (engine : FallibleEngine) (h : Highlighter) :
    Option HighlightError × Highlighter :=
  if h.attached then (none, h)
  else
    let (fault, h) := h.employ spawned
    (fault, h.startOver engine)

/-- Starts highlighting, where a worker can be spawned. -/
def attach (engine : FallibleEngine) (h : Highlighter) : Highlighter :=
  (h.attachWith (.ok .idle) engine).2

/-- Stops highlighting and releases the worker, the index and the tree. Does nothing while
detached. -/
def detach (h : Highlighter) : Highlighter :=
  if h.attached then discardTree (clearWork { h with attached := false, worker := none }) else h

/-! ### Classifying again -/

/-- The scheduler once a span waits again, or the whole document. -/
def requeued (h : Highlighter) : Option Span → Scheduler
  | some s => h.scheduler.request [s.clampTo h.snapshot.size]
  | none => h.scheduler.invalidateAll h.snapshot.size

/-- Queues a span again, or the whole document. Does nothing while detached. -/
def requeue (h : Highlighter) (span : Option Span) : Highlighter :=
  { h with scheduler := if h.attached then h.requeued span else h.scheduler }

/-- Classifies a span again, or the whole document. Does nothing while detached. -/
def invalidate (engine : FallibleEngine) (h : Highlighter) (span : Option Span) : Highlighter :=
  (h.requeue span).reconcile engine

/-! ### Language and theme -/

/-- The language of a grammar, or none for plain text. If the parser cannot use the grammar, the text
is plain and the error is answered. -/
def languageFor (h : Highlighter) : Option Grammar → Option HighlightError × Option Language
  | none => (none, none)
  | some g =>
    match TreeKeeper.forGrammar g with
    | .error fault => (some fault, none)
    | .ok keeper => (none, some ⟨.make g h.theme, keeper⟩)

/-- Drops all categories, and takes another language. -/
def withLanguage (h : Highlighter) (language : Option Language) : Highlighter :=
  announceUnclassified { h.clearWork with language } h.snapshot.whole

/-- Switches to a grammar, or to plain text. All categories are dropped, and the text is parsed from
scratch. -/
def setLanguage (engine : FallibleEngine) (h : Highlighter) (source : Option Grammar) :
    Option HighlightError × Highlighter :=
  let (fault, language) := h.languageFor source
  (fault, (h.withLanguage language).startOver engine)

/-- Switches to a registered language. An error of the registry comes before one of the parser. -/
def setLanguageFrom (engine : FallibleEngine) (h : Highlighter) (registry : Registry)
    (name : String) : Option HighlightError × Highlighter :=
  let (source, unavailable) := registry.sourceFor name
  let (fault, h) := h.setLanguage engine source
  (unavailable <|> fault, h)

def withTheme (h : Highlighter) (theme : Theme) : Highlighter :=
  { h with
    theme
    language := h.language.map fun l => { l with rules := .make l.rules.grammar theme } }

/-- Switches to another theme. The tree stays, and the whole document is classified again. -/
def setTheme (engine : FallibleEngine) (h : Highlighter) (theme : Theme) : Highlighter :=
  ((h.withTheme theme).requeue none).reconcile engine

/-! ### View and text -/

def withVisible (h : Highlighter) (visible : Option Span) : Highlighter :=
  { h with scheduler := h.scheduler.setVisible (visible.map (·.clampTo h.snapshot.size)) }

/-- Names the part of the text that the user sees. -/
def setVisible (h : Highlighter) (visible : Option Span) : Highlighter :=
  let h := h.withVisible visible
  if h.attached then h.pump else h

/-- Takes one edit into the log, the index and the scheduler; `none` if its revision is not the next
one or the log rejects it. An edit without a revision is numbered by the log. -/
def takeEdit? (h : Highlighter) (e : Edit) : Option Highlighter :=
  if e.revision ≠ 0 ∧ e.revision ≠ h.log.revision + 1 then none
  else match h.log.record e with
    | .error _ => none
    | .ok log =>
      let scheduler := h.scheduler.noteEdit (h.log.stamp e)
      let scheduler := match h.index.lost e.splice with
        | none => scheduler
        | some region => scheduler.markDirty region
      some { h with log, scheduler, index := h.index.apply e.splice }

/-- Takes edits in order up to the first that does not line up; answers whether all did. -/
def takeEdits (h : Highlighter) : List Edit → Bool × Highlighter
  | [] => (true, h)
  | e :: rest =>
    match h.takeEdit? e with
    | none => (false, h)
    | some h => h.takeEdits rest

/-- The log stands at the revision and length of a snapshot. -/
def agreesWith (h : Highlighter) (snapshot : Snapshot) : Bool :=
  h.log.revision == snapshot.revision && h.log.size == snapshot.size

/-- Drops all that is known, whatever came before the text. -/
def restart (h : Highlighter) : Highlighter :=
  let log := h.log.reset h.snapshot.revision h.snapshot.size
  let h := discardTree (clearWork { h with log })
  h.announceUnclassified h.snapshot.whole

/-- Takes a new text and the edits that lead to it from the one before. If the edits do not line up
with the text, all that is known is dropped. -/
def follow (h : Highlighter) (snapshot : Snapshot) (edits : List Edit) : Highlighter :=
  let (linedUp, h) := h.takeEdits edits
  let inSync := linedUp && h.agreesWith snapshot
  let h := { h with snapshot }
  if !inSync then h.restart.queueAll
  else { h with parseDue := true, log := if h.attached then h.log else h.log.drain }

/-- Merges what is ready, takes a new text and the edits that lead to it, and reconciles. -/
def textDidChange (engine : FallibleEngine) (h : Highlighter) (snapshot : Snapshot)
    (edits : List Edit) : Highlighter :=
  let (_, h) := h.collectResults
  (h.follow snapshot edits).reconcile engine

/-- Merges what is ready and hands out more work; answers how many results were merged. -/
def poll (engine : FallibleEngine) (h : Highlighter) : Nat × Highlighter :=
  let (merged, h) := h.collectResults
  (merged, h.reconcile engine)

/-- One step of the background worker, which may happen between any two calls. -/
def workerStep (h : Highlighter) : Highlighter :=
  { h with worker := h.worker.map Worker.step }

/-- Polls until idle while attached, at most `limit` times, with a step of the worker before each
poll. Answers how many results were merged, and the number of polls. -/
def settle (engine : ParsingEngine) : Nat → Highlighter → (Nat × Nat) × Highlighter
  | 0, h => ((0, 0), h)
  | limit + 1, h =>
    if h.attached && !h.isIdle then
      let (merged, h) := h.workerStep.poll engine
      let ((more, polls), h) := settle engine limit h
      ((merged + more, polls + 1), h)
    else ((0, 0), h)

/-! ### The exit of the worker

The worker may exit before all requests are answered. A call that collects results finds this out
once it has taken the answers that were left; otherwise it shows when a job cannot be sent. -/

/-- What a call that collects results does first if the worker has exited. The answers that it left
are merged, the worker is released, and what live jobs have promised waits again. Answers how many
results were merged. -/
def releaseWorker (h : Highlighter) : Nat × Highlighter :=
  match h.worker with
  | none => (0, h)
  | some _ =>
    let (merged, h) := h.collectAnswers
    (merged, { h with worker := none, scheduler := h.scheduler.requeueInFlight })

/-- Hands out jobs if the worker has exited since results were collected. The first job that cannot
be sent shows it, and all of them are deferred. The jobs that the worker holds stay on the books. -/
def dispatchAtExit (h : Highlighter) (jobs : List Job) : Highlighter :=
  match h.basis?, jobs with
  | some _, _ :: _ => dispatch { h with worker := none } jobs
  | _, _ => h.dispatch jobs

/-! ### Listening -/

def subscribe (h : Highlighter) (label : String) : ListenerId × Highlighter :=
  let (id, listeners) := h.listeners.subscribe label
  (id, { h with listeners })

def unsubscribe (h : Highlighter) (id : ListenerId) : Bool × Highlighter :=
  let (known, listeners) := h.listeners.unsubscribe id
  (known, { h with listeners })

/-- Hands out the deliveries since the last collection, in the order in which they were made. -/
def collect (h : Highlighter) : List (String × List StyleRun) × Highlighter :=
  (h.outbox.flatMap Notice.deliveries, { h with outbox := [] })

/-! ### Reading -/

/-- The category of a byte; unclassified past the end of the text. -/
def styleAt (h : Highlighter) (offset : Nat) : Category :=
  if h.snapshot.size ≤ offset then .unclassified else h.index.styleAt offset

/-- The categories of a span, as a coalesced tiling of it. -/
def query (h : Highlighter) (s : Span) : List StyleRun :=
  h.index.query s

def revision (h : Highlighter) : Revision :=
  h.log.revision

def grammar? (h : Highlighter) : Option Grammar :=
  h.language.map fun l => l.rules.grammar

def languageName (h : Highlighter) : String :=
  sourceName h.grammar?

def lastParseMode? (h : Highlighter) : Option ParseMode :=
  h.language.bind fun l => l.keeper.lastMode

/-- The summary line. -/
def describe (h : Highlighter) : String :=
  let degraded := match h.degraded with
    | none => "None"
    | some revision => s!"Some({revision})"
  s!"Highlighter \x7b language: {Quoted.quote h.languageName}, revision: {h.revision}, " ++
    s!"attached: {h.attached}, phase: {h.phase.name}, " ++
    s!"in_flight: {h.scheduler.inFlight.length}, degraded: {degraded} \x7d"

end Highlighting.Highlighter
