import Highlighting.Text

/-!
Rows and lines of a text.

Rows are ended by the newline byte alone. Columns count bytes from the start of the row. All of it
is read off the bytes, so an offset inside a character has a point like any other.
-/

namespace Highlighting

/-- A position as row and byte column, both counted from zero. -/
structure Point where
  row : Nat
  column : Nat
deriving DecidableEq

def newline : UInt8 := 10

/-- How many bytes at the end of the list follow its last newline. -/
def tailLength (bytes : List UInt8) : Nat :=
  (bytes.reverse.takeWhile (· ≠ newline)).length

/-- How many bytes the first line has, its newline included if it has one. -/
def headLength (bytes : List UInt8) : Nat :=
  min ((bytes.takeWhile (· ≠ newline)).length + 1) bytes.length

namespace Text

/-- The point of an offset; offsets past the end have the point of the end. -/
def pointAt (t : Text) (offset : Nat) : Point :=
  let before := t.bytes.take offset
  ⟨before.count newline, tailLength before⟩

/-- Where the line that holds `offset` starts. -/
def lineStart (t : Text) (offset : Nat) : Nat :=
  offset - tailLength (t.bytes.take offset)

/-- Where the line that holds `offset` ends, behind its newline if it has one. -/
def lineStop (t : Text) (offset : Nat) : Nat :=
  offset + headLength (t.bytes.drop offset)

/-- The lines that `s`, brought inside the text, reaches into. An empty span grows to the line that
holds it. -/
def expandToLines (t : Text) (s : Span) : Span :=
  let s := s.clampTo t.size
  ⟨t.lineStart s.start, t.lineStop (max (s.stop - 1) s.start)⟩

end Text

end Highlighting
