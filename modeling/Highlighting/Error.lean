import Highlighting.Text.Edit

/-!
Errors of highlighting. None of them stops the editing of text: they are reported, and what they
concern is left unclassified.
-/

namespace Highlighting

inductive HighlightError where
  /-- The parser cannot use the grammar's language. -/
  | language (text : String)
  /-- The highlights query is malformed. -/
  | query (text : String)
  /-- The edits do not lead from the parsed text to the new one. -/
  | deltaMismatch
  | parseFailed (revision : Revision)
  | unknownLanguage (name : String)
  | worker (text : String)
  | edit (fault : EditError)
deriving DecidableEq

def HighlightError.message : HighlightError → String
  | language text => s!"tree-sitter language error: {text}"
  | query text => s!"tree-sitter query error: {text}"
  | deltaMismatch => "tree-sitter delta mismatch"
  | parseFailed revision => s!"parser produced no tree for revision {revision}"
  | unknownLanguage name => s!"unknown language '{name}'"
  | worker text => s!"highlight worker unavailable: {text}"
  | edit fault => fault.message

end Highlighting
