import Highlighting.Text.Snapshot

/-!
Documents: an editable text, its revision, and the subscribers that hear of every edit.

What subscribers are told is a value. `Document.outbox` holds the deliveries that were not collected
yet, in the order in which they were made.
-/

namespace Highlighting

structure Document where
  snapshot : Snapshot
  /-- The number of subscribers; they are numbered from 1 in order of subscription. -/
  subscribers : Nat
  /-- Subscriber and edit of each delivery since the last collection. -/
  outbox : List (Nat × Edit)

namespace Document

/-- A document at revision 0. -/
def ofText (text : Text) : Document :=
  ⟨⟨0, text⟩, 0, []⟩

def revision (d : Document) : Revision :=
  d.snapshot.revision

def text (d : Document) : Text :=
  d.snapshot.text

/-- Adds a subscriber, whose number is the new count. -/
def subscribe (d : Document) : Document :=
  { d with subscribers := d.subscribers + 1 }

/-- Moves to `text` at the revision of `e` and tells every subscriber of `e`. -/
def advance (d : Document) (e : Edit) (text : Text) : Document :=
  { d with
    snapshot := ⟨e.revision, text⟩
    outbox := d.outbox ++ (List.range d.subscribers).map fun n => (n + 1, e) }

/-- The edit under the number it gets in this document. -/
def stamp (d : Document) (e : Edit) : Edit :=
  { e with revision := d.revision + 1 }

/-- Applies an edit; answers it as stamped, with the document after it. -/
def apply (d : Document) (e : Edit) : Except EditError (Edit × Document) := do
  let text ← d.text.apply e
  return (d.stamp e, d.advance (d.stamp e) text)

def insert (d : Document) (offset : Nat) (text : Text) : Except EditError (Edit × Document) :=
  d.apply (.insert offset text)

def delete (d : Document) (s : Span) : Except EditError (Edit × Document) :=
  d.apply (.delete s)

def replace (d : Document) (s : Span) (text : Text) : Except EditError (Edit × Document) :=
  d.apply (.replace s text)

/-- Replaces the whole text. -/
def setText (d : Document) (text : Text) : Edit × Document :=
  let e := d.stamp (.replace d.snapshot.whole text)
  (e, d.advance e text)

/-- Applies edits in order up to the first that is rejected. Answers the stamped edits that were
applied, the error if there was one, and the document. -/
def applyAll (d : Document) : List Edit → List Edit × Option EditError × Document
  | [] => ([], none, d)
  | e :: rest =>
    match d.apply e with
    | .error fault => ([], some fault, d)
    | .ok (stamped, d) =>
      let (applied, fault, d) := d.applyAll rest
      (stamped :: applied, fault, d)

/-- Hands out the deliveries that were not collected yet. -/
def collect (d : Document) : List (Nat × Edit) × Document :=
  (d.outbox, { d with outbox := [] })

end Document

end Highlighting
