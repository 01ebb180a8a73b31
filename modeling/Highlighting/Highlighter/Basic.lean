import Highlighting.Grammar.Registry
import Highlighting.Highlighter.Worker
import Highlighting.Scheduler.Plan
import Highlighting.Style.Index
import Highlighting.Style.Listeners
import Highlighting.Text.EditLog
import Highlighting.Tree.Upkeep

/-!
The highlighter of one document: its state, and how work is handed out and merged.

The highlighter keeps the style index in step with the text. Bytes whose category is not known for
the current text and rules read as unclassified until they are classified; a category of older text
is never read. Small work is done at once. The rest goes out in jobs, to the background worker if
there is one and otherwise to the queue of deferred requests, of which each poll runs one.

A text that the parsing library gives up on is tried again by later calls. After some failed
attempts at one revision the highlighter leaves the text unclassified until it changes.

The calls that a text view makes are in `Highlighting.Highlighter.Calls`.
-/

namespace Highlighting

structure HighlighterConfig where
  scheduler : SchedulerConfig
  /-- After so many failed parses of one revision it is left unclassified. -/
  maxParseFailures : Nat
  /-- Jobs go to a background worker. -/
  background : Bool
deriving DecidableEq

namespace HighlighterConfig

def standard : HighlighterConfig :=
  ⟨.standard, 2, true⟩

/-- Sets how many parses may fail, at least one. -/
def withMaxParseFailures (c : HighlighterConfig) (failures : Nat) : HighlighterConfig :=
  { c with maxParseFailures := max failures 1 }

end HighlighterConfig

/-- A language in use: its rules under the current theme, and the tree of the document. -/
structure Language where
  rules : Rules
  keeper : TreeKeeper
deriving DecidableEq

/-- The parsing library, for every grammar. -/
structure FallibleEngine where
  parser : Grammar → FallibleParser

/-- A parsing library that always answers. -/
abbrev ParsingEngine := Grammar → Parser

def ParsingEngine.toFallible (engine : ParsingEngine) : FallibleEngine :=
  ⟨fun grammar old target => some (engine grammar old target)⟩

instance : Coe ParsingEngine FallibleEngine :=
  ⟨ParsingEngine.toFallible⟩

structure Highlighter where
  config : HighlighterConfig
  theme : Theme
  /-- Absent for plain text. -/
  language : Option Language
  /-- The latest text taken. -/
  snapshot : Snapshot
  log : EditLog
  index : StyleIndex
  scheduler : Scheduler
  listeners : Listeners
  /-- Present while attached, if jobs go to the background. -/
  worker : Option Worker
  /-- Requests to run on later polls, oldest first. -/
  deferred : List Request
  attached : Bool
  /-- The tree does not follow the text yet. -/
  parseDue : Bool
  /-- The revision that was given up last, unless all was dropped since. -/
  degraded : Option Revision
  /-- Notices since the last collection. -/
  outbox : List Notice

namespace Highlighter

/-- A detached highlighter for plain text. -/
def make (snapshot : Snapshot) (theme : Theme) (config : HighlighterConfig) : Highlighter :=
  { config, theme, snapshot
    language := none
    log := .start snapshot.revision snapshot.size
    index := .empty
    scheduler := .start config.scheduler snapshot.revision
    listeners := .empty
    worker := none
    deferred := []
    attached := false
    parseDue := true
    degraded := none
    outbox := [] }

def tree? (h : Highlighter) : Option SyntaxTree :=
  h.language.bind fun l => l.keeper.tree

/-- What jobs classify by: the tree and the rules, if there is a tree. -/
def basis? (h : Highlighter) : Option (SyntaxTree × Rules) :=
  h.language.bind fun l => l.keeper.tree.map fun t => (t, l.rules)

/-- The text was given up and is left unclassified. -/
def isDegraded (h : Highlighter) : Bool :=
  h.degraded == some h.snapshot.revision

/-- The text has to be parsed before work is handed out. -/
def parsePending (h : Highlighter) : Bool :=
  h.attached && h.parseDue && h.language.isSome && !h.isDegraded

def phase (h : Highlighter) : Phase :=
  if h.parsePending then .reparsing else h.scheduler.phase

/-- Every byte is classified for the current text, as far as it can be parsed. -/
def isIdle (h : Highlighter) : Bool :=
  !h.parsePending && h.scheduler.isIdle

/-! ### Merging -/

def announce (h : Highlighter) (runs : List StyleRun) : Highlighter :=
  { h with outbox := h.outbox ++ h.listeners.notify runs }

/-- Announces a span that reads as unclassified from now on. -/
def announceUnclassified (h : Highlighter) (s : Span) : Highlighter :=
  if s.isEmpty then h else h.announce [.unclassified s]

/-- Stores runs in the index and announces them. Runs that do not tile the span are dropped, and the
span becomes unclassified. -/
def merge (h : Highlighter) (s : Span) (runs : List StyleRun) : Highlighter :=
  match h.index.replace s runs with
  | .ok index => announce { h with index } runs
  | .error _ =>
    match h.index.replace s [.unclassified s] with
    | .ok index => announce { h with index } [.unclassified s]
    | .error _ => h

/-- Takes the result of a job; answers whether it was merged. -/
def finish (h : Highlighter) (id : JobId) (runs : List StyleRun) : Bool × Highlighter :=
  match h.scheduler.complete id with
  | (.merge job, scheduler) =>
    let h := merge { h with scheduler } job.span runs
    (true, { h with scheduler := h.scheduler.finishApplying })
  | (.stale _, scheduler) => (false, { h with scheduler })
  | (.unknown, scheduler) => (false, { h with scheduler })

/-- Takes answers in order; answers how many were merged. -/
def finishAll (h : Highlighter) : List Answer → Nat × Highlighter
  | [] => (0, h)
  | a :: rest =>
    let (merged, h) := h.finish a.request.job.id a.runs
    let (count, h) := h.finishAll rest
    (merged.toNat + count, h)

/-- Takes all answers that the worker has ready. -/
def collectAnswers (h : Highlighter) : Nat × Highlighter :=
  match h.worker with
  | none => (0, h)
  | some w => finishAll { h with worker := some { w with answers := [] } } w.answers

/-- Runs the oldest deferred request. -/
def runDeferred (h : Highlighter) : Nat × Highlighter :=
  match h.deferred with
  | [] => (0, h)
  | r :: rest => finishAll { h with deferred := rest } [r.answer]

/-- Merges what is ready; answers how many results were merged. The worker, if there is one, has not
exited; see `releaseWorker`. -/
def collectResults (h : Highlighter) : Nat × Highlighter :=
  let (fromWorker, h) := h.collectAnswers
  let (fromQueue, h) := h.runDeferred
  (fromWorker + fromQueue, h)

/-! ### Handing out work -/

/-- The categories of a span now; all unclassified without a tree. -/
def classify (h : Highlighter) (s : Span) : List StyleRun :=
  match h.basis? with
  | none => [.unclassified s]
  | some (tree, rules) => tree.classify rules s

def classifyNow (h : Highlighter) (s : Span) : Highlighter :=
  h.merge s (h.classify s)

/-- Sends requests to the worker, or defers them. The worker, if there is one, has not exited; see
`dispatchAtExit`. -/
def submit (h : Highlighter) (rs : List Request) : Highlighter :=
  match h.worker with
  | some w => { h with worker := some (w.submit rs) }
  | none => { h with deferred := h.deferred ++ rs }

/-- Finishes a job on the spot, for lack of a tree. -/
def finishPlain (h : Highlighter) (job : Job) : Highlighter :=
  (h.finish job.id [.unclassified job.span]).2

/-- Hands out jobs. Without a tree they are finished on the spot. -/
def dispatch (h : Highlighter) (jobs : List Job) : Highlighter :=
  match h.basis? with
  | none => jobs.foldl finishPlain h
  | some (tree, rules) => h.submit (jobs.map fun job => ⟨job, tree, rules⟩)

/-- Does the work at hand and hands out the rest, unless a parse comes first. -/
def pump (h : Highlighter) : Highlighter :=
  if h.parsePending then h
  else
    let (plan, scheduler) := h.scheduler.plan h.snapshot.size
    let h := { h with scheduler }
    if plan.isEmpty then h
    else
      let h := plan.inline.foldl classifyNow h
      let h := h.dispatch plan.jobs
      { h with scheduler := h.scheduler.finishApplying }

/-! ### Following the text -/

/-- What to classify again after a parse: the changed spans and the edited lines. -/
def changedBytes (snapshot : Snapshot) (changed : List Span) (edits : List Edit) : List Span :=
  ((SpanSet.ofList changed).insertAll
    ((editedSpans edits).spans.map snapshot.text.expandToLines)).spans

/-- Drops all categories and all outstanding work. -/
def clearWork (h : Highlighter) : Highlighter :=
  { h with
    index := .empty
    deferred := []
    scheduler := h.scheduler.reset h.log.revision
    log := h.log.drain
    degraded := none }

/-- Gives the text up: all of it is unclassified until it changes. -/
def degrade (h : Highlighter) : Highlighter :=
  announceUnclassified { h.clearWork with degraded := some h.snapshot.revision } h.snapshot.whole

/-- Takes over a tree, and queues what has to be classified again: the changed spans and the lines
of the edits that were pending. -/
def adopt (h : Highlighter) (l : Language) (edits : List Edit) (outcome : ParseOutcome)
    (keeper : TreeKeeper) : Highlighter :=
  { h with
    language := some { l with keeper }
    log := h.log.drain
    scheduler := h.scheduler.beginReparse.request
      (changedBytes h.snapshot outcome.changed edits) }

/-- Parses the text in a language, with the edits that are pending; answers whether there is a tree
of it then. A text that has failed too often is given up. -/
def reparse (engine : FallibleEngine) (h : Highlighter) (l : Language) : Bool × Highlighter :=
  let edits := h.log.pending
  match l.keeper.attempt (engine.parser l.rules.grammar) edits h.snapshot with
  | (.ok outcome, keeper) => (true, h.adopt l edits outcome keeper)
  | (.error _, keeper) =>
    let h := { h with
      language := some { l with keeper }
      log := h.log.drain
      scheduler := h.scheduler.beginReparse }
    let failed := keeper.failureCount h.snapshot.revision
    (false, if h.config.maxParseFailures ≤ failed then h.degrade else h)

/-- Parses if a parse is pending; answers whether work can be handed out then. -/
def parseIfPending (engine : FallibleEngine) (h : Highlighter) : Bool × Highlighter :=
  match h.language with
  | none => (true, h)
  | some l => if h.parsePending then h.reparse engine l else (true, h)

/-- Brings the tree up to the text, then hands out work. A failed parse stays due, and no work is
handed out. Does nothing while detached. -/
def reconcile (engine : FallibleEngine) (h : Highlighter) : Highlighter :=
  if h.attached then
    match h.parseIfPending engine with
    | (true, h) => pump { h with parseDue := false, log := h.log.drain }
    | (false, h) => h
  else h

def discardTree (h : Highlighter) : Highlighter :=
  { h with language := h.language.map fun l => { l with keeper := l.keeper.discard } }

/-- Queues the whole document with a parse before it. While detached only the parse is due. -/
def queueAll (h : Highlighter) : Highlighter :=
  { h with
    parseDue := true
    scheduler := if h.attached then h.scheduler.invalidateAll h.snapshot.size else h.scheduler }

/-- Queues the whole document, and brings the tree up to the text before it hands out work. -/
def startOver (engine : FallibleEngine) (h : Highlighter) : Highlighter :=
  h.queueAll.reconcile engine

end Highlighter

end Highlighting
