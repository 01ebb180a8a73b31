import Highlighting.Grammar.Basic
import Highlighting.Text.Snapshot

/-!
Syntax trees, as far as highlighting sees them.

The parsing library builds the tree and runs the highlights query on it. What highlighting needs of
a tree are the captures that this query has in it, and the text that it was parsed from.
-/

namespace Highlighting

/-- A node that a pattern of the highlights query has captured. -/
structure Capture where
  node : Span
  /-- How many levels the node lies below the root. -/
  depth : Nat
  pattern : Nat
  /-- The capture index in the query. -/
  index : Nat
deriving DecidableEq

/-- A tree with the snapshot it was parsed from, so that it is never read against another text. -/
structure SyntaxTree where
  snapshot : Snapshot
  /-- All captures of the tree, in the order in which their matches arrive. -/
  captures : List Capture
deriving DecidableEq

namespace SyntaxTree

def revision (t : SyntaxTree) : Revision :=
  t.snapshot.revision

/-- The captures that the query reports when it is restricted to a span. The query cursor belongs to
the parsing library, and this is what is assumed of it: it reports just those captures of the whole
tree whose nodes meet the span, and in the order in which it reports them for the whole tree. -/
def capturesIn (t : SyntaxTree) (s : Span) : List Capture :=
  t.captures.filter (·.node.meets s)

end SyntaxTree

end Highlighting
