import Highlighting.Span.Set
import Highlighting.Text

/-!
Edits: the replacement of a span of a text by a new text.

Offsets of an edit refer to the text that the edits before it have left. `Edit.revision` is the
revision that the edit leads to; 0 stands for an edit that was not numbered yet.
-/

namespace Highlighting

/-- Revisions count the edits that a document took. -/
abbrev Revision := Nat

structure Edit where
  revision : Revision
  span : Span
  text : Text
deriving DecidableEq

/-- Why an edit cannot be applied. -/
inductive EditError where
  | outOfBounds (span : Span) (size : Nat)
  | inverted (span : Span)
  | notBoundary (offset : Nat)
deriving DecidableEq

def EditError.message : EditError → String
  | outOfBounds span size =>
    s!"edit range {span.start}..{span.stop} is out of bounds for a document of {size} bytes"
  | inverted span => s!"edit range {span.start}..{span.stop} ends before it starts"
  | notBoundary offset => s!"byte offset {offset} is not on a UTF-8 character boundary"

namespace Edit

def replace (s : Span) (text : Text) : Edit :=
  ⟨0, s, text⟩

def insert (offset : Nat) (text : Text) : Edit :=
  replace (.emptyAt offset) text

def delete (s : Span) : Edit :=
  replace s .empty

/-- What the edit does to offsets. -/
def splice (e : Edit) : Splice :=
  ⟨e.span, e.text.size⟩

/-- The span of the inserted text after the edit. -/
def newSpan (e : Edit) : Span :=
  e.splice.fresh

/-- The change in length, as a signed number of 64 bits. -/
def delta (e : Edit) : Int :=
  ((e.text.size : Int) - e.span.length).bmod (Nat.pow 2 64)

def isNoop (e : Edit) : Bool :=
  e.span.isEmpty && e.text.isEmpty

/-- Checks the span of the edit against a text of `size` bytes. -/
def check (e : Edit) (size : Nat) : Except EditError Unit :=
  if e.span.stop < e.span.start then .error (.inverted e.span)
  else if size < e.span.stop then .error (.outOfBounds e.span size)
  else .ok ()

/-- The bytes that the edit marks as edited: the inserted text, or for a deletion the byte behind
the seam that it leaves. -/
def mark (e : Edit) : Span :=
  if e.newSpan.isEmpty then ⟨e.newSpan.start, e.newSpan.start + 1⟩ else e.newSpan

end Edit

/-- The bytes that a batch of edits marks, in offsets of the text after the last one. -/
def editedSpans (edits : List Edit) : SpanSet :=
  edits.foldl (fun marked e => (marked.splice e.splice).insert e.mark) .empty

namespace Text

/-- Cuts at an offset that was found to be inside the text. -/
def cutAt (t : Text) (offset : Nat) : Except EditError (Text × Text) :=
  match t.splitAt? offset with
  | some halves => .ok halves
  | none => .error (.notBoundary offset)

/-- The text after the edit. A span that is inverted or out of bounds is reported first, then a
start inside a character, then a stop inside one. -/
def apply (t : Text) (e : Edit) : Except EditError Text := do
  e.check t.size
  let (front, _) ← t.cutAt e.span.start
  let (_, back) ← t.cutAt e.span.stop
  return front ++ e.text ++ back

end Text

end Highlighting
