import Highlighting.Text.Edit

/-!
The edit log: the edits since the last parse, numbered.

The log knows the length of the text but not the text itself, so it checks bounds and leaves
character boundaries to the document.
-/

namespace Highlighting

structure EditLog where
  revision : Revision
  /-- The length of the text after every recorded edit. -/
  size : Nat
  /-- The edits recorded and not yet taken, oldest first. -/
  pending : List Edit
deriving DecidableEq

namespace EditLog

def start (revision : Revision) (size : Nat) : EditLog :=
  ⟨revision, size, []⟩

def isEmpty (l : EditLog) : Bool :=
  l.size == 0

def hasPending (l : EditLog) : Bool :=
  !l.pending.isEmpty

/-- The edit as the log would record it next. -/
def stamp (l : EditLog) (e : Edit) : Edit :=
  { e with revision := l.revision + 1 }

/-- Records an edit under the next revision. A rejected edit changes nothing. -/
def record (l : EditLog) (e : Edit) : Except EditError EditLog :=
  match e.check l.size with
  | .error fault => .error fault
  | .ok _ => .ok
    { revision := l.revision + 1
      size := l.size - e.span.length + e.text.size
      pending := l.pending ++ [l.stamp e] }

/-- The log without its pending edits, once these were taken. -/
def drain (l : EditLog) : EditLog :=
  { l with pending := [] }

/-- Starts again from a text of `size` bytes at `revision`, and forgets what is pending. -/
def reset (_ : EditLog) (revision : Revision) (size : Nat) : EditLog :=
  start revision size

end EditLog

end Highlighting
