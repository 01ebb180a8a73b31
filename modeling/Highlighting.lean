import Highlighting.Highlighter.Calls
import Highlighting.Text.Document
import Highlighting.Proofs.Scheduler.Owed
import Highlighting.Proofs.Highlighter.Supersession
import Highlighting.Proofs.Highlighter.Convergence
import Highlighting.Proofs.Index.Losses
import Highlighting.Proofs.Painting.Winners
import Highlighting.Proofs.Highlighter.Mirror
import Highlighting.Proofs.Highlighter.Increments
import Highlighting.Proofs.Scheduler.History
import Highlighting.Proofs.Scheduler.Delivery
import Highlighting.Proofs.Scheduler.Progress
import Highlighting.Proofs.Highlighter.Standing
import Highlighting.Proofs.Highlighter.Settling
import Highlighting.Proofs.Highlighter.Afresh
import Highlighting.Proofs.Spans.Bytes
import Highlighting.Proofs.Painting.Parts
import Highlighting.Proofs.Tree.Lifetime
import Highlighting.Proofs.Highlighter.Workload
import Highlighting.Proofs.Highlighter.Phases
import Highlighting.Proofs.Highlighter.Announcements
import Highlighting.Proofs.Index.Queries
import Highlighting.Proofs.Index.Edits
import Highlighting.Proofs.Text.Origins
import Highlighting.Proofs.Spans.Edits
import Highlighting.Proofs.Scheduler.Priority
import Highlighting.Proofs.Highlighter.Merges
import Highlighting.Proofs.Highlighter.Failures
import Highlighting.Proofs.Highlighter.WorkerExit
import Highlighting.Proofs.Text.Atomicity
import Highlighting.Proofs.Text.Recording
import Highlighting.Proofs.Text.Points
import Highlighting.Proofs.Text.Lines
import Highlighting.Proofs.Naming
import Highlighting.Proofs.Grammar
import Highlighting.Proofs.Runs.NormalForm
