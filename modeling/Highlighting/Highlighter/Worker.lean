import Highlighting.Scheduler.Basic
import Highlighting.Tree.Painting

/-!
Classification requests and the background worker that answers them.

A request holds all that its answer depends on: the tree and the rules of the moment in which its
job was dispatched. The worker is a pair of queues, both first in, first out. Between a request and
the collection of its answer any number of other things may happen.
-/

namespace Highlighting

/-- A job with the tree and the rules to classify by. -/
structure Request where
  job : Job
  tree : SyntaxTree
  rules : Rules
deriving DecidableEq

/-- A request with the runs that classify the span of its job. -/
structure Answer where
  request : Request
  runs : List StyleRun
deriving DecidableEq

def Request.answer (r : Request) : Answer :=
  ⟨r, r.tree.classify r.rules r.job.span⟩

structure Worker where
  /-- Requests not worked on, oldest first. -/
  requests : List Request
  /-- Answers not collected, oldest first. -/
  answers : List Answer
deriving DecidableEq

namespace Worker

def idle : Worker :=
  ⟨[], []⟩

def submit (w : Worker) (rs : List Request) : Worker :=
  { w with requests := w.requests ++ rs }

/-- Answers the oldest request. -/
def step (w : Worker) : Worker :=
  match w.requests with
  | [] => w
  | r :: rest => ⟨rest, w.answers ++ [r.answer]⟩

end Worker

end Highlighting
