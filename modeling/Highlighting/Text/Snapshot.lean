import Highlighting.Text.Edit
import Highlighting.Text.Lines

/-!
Snapshots: the text of a document at one revision.
-/

namespace Highlighting

@[ext]
structure Snapshot where
  revision : Revision
  text : Text
deriving DecidableEq

namespace Snapshot

/-- The empty text at revision 0. -/
instance : Inhabited Snapshot := ⟨0, .empty⟩

def size (s : Snapshot) : Nat :=
  s.text.size

def isEmpty (s : Snapshot) : Bool :=
  s.text.isEmpty

/-- All bytes of the text. -/
def whole (s : Snapshot) : Span :=
  ⟨0, s.size⟩

/-- The snapshot after an edit. It has the revision that the edit carries. -/
def apply (s : Snapshot) (e : Edit) : Except EditError Snapshot := do
  let text ← s.text.apply e
  return ⟨e.revision, text⟩

/-- Applies edits in order, each to the snapshot that the one before has left. -/
def replay (s : Snapshot) : List Edit → Except EditError Snapshot
  | [] => .ok s
  | e :: rest => do (← s.apply e).replay rest

end Snapshot

end Highlighting
