import Highlighting.Error
import Highlighting.Grammar.Priority
import Highlighting.Style.Theme

/-!
Grammars: a language for the parser, with the highlights query that names what to style.

Compiling a query is the work of the parsing library; a `GrammarConfig` carries its verdict on the
query's text. A grammar without a query has no patterns and leaves all text unclassified.
-/

namespace Highlighting

/-- A compiled highlights query. -/
structure Query where
  /-- The name of each capture, by capture index. -/
  captureNames : List String
  /-- The properties that each pattern sets, by pattern index and in order. -/
  settings : List (List (String × Option String))
deriving DecidableEq

/-- What a language is registered with. -/
structure GrammarConfig where
  name : String
  /-- The version of the parser interface that the language was built for. -/
  abi : Nat
  /-- The text of the highlights query. -/
  highlights : String
  /-- The compiled query, or the compiler's message. -/
  compiled : Except String Query
  /-- File extensions without leading dots. -/
  extensions : List String

/-- Without leading dots. -/
def bareExtension (extension : String) : String :=
  String.ofList (extension.toList.dropWhile (· = '.'))

/-- Adds file extensions, which may be given with leading dots. -/
def GrammarConfig.withExtensions (c : GrammarConfig) (extensions : List String) : GrammarConfig :=
  { c with extensions := c.extensions ++ extensions.map bareExtension }

structure Grammar where
  name : String
  abi : Nat
  query : Option Query
  /-- The priority of each pattern. -/
  priorities : List Nat
deriving DecidableEq

namespace Grammar

def compile (c : GrammarConfig) : Except HighlightError Grammar :=
  match c.compiled with
  | .error text => .error (.query text)
  | .ok query => .ok ⟨c.name, c.abi, some query, query.settings.map Priority.ofSettings⟩

def withoutPatterns (c : GrammarConfig) : Grammar :=
  ⟨c.name, c.abi, none, []⟩

/-- The compiled grammar, or the one without patterns beside the error. -/
def compileOrBare (c : GrammarConfig) : Grammar × Option HighlightError :=
  match compile c with
  | .ok g => (g, none)
  | .error e => (withoutPatterns c, some e)

def patternCount (g : Grammar) : Nat :=
  g.priorities.length

def priority (g : Grammar) (pattern : Nat) : Nat :=
  g.priorities[pattern]?.getD Priority.standard

/-- The versions of the parser interface that the parser can use. -/
def oldestAbi : Nat := 13

def newestAbi : Nat := 15

/-- Checks that the parser can use the grammar's language. -/
def checkAbi (g : Grammar) : Except HighlightError Unit :=
  if oldestAbi ≤ g.abi ∧ g.abi ≤ newestAbi then .ok ()
  else .error (.language (s!"Incompatible language version {g.abi}. " ++
    s!"Expected minimum {oldestAbi}, maximum {newestAbi}"))

end Grammar

/-- A grammar with the style of each of its captures under a theme. -/
structure Rules where
  grammar : Grammar
  captureStyles : List (Option StyleId)
deriving DecidableEq

namespace Rules

def make (g : Grammar) (theme : Theme) : Rules :=
  ⟨g, match g.query with
    | none => []
    | some query => query.captureNames.map theme.resolve?⟩

def captureStyle? (r : Rules) (capture : Nat) : Option StyleId :=
  r.captureStyles[capture]?.join

end Rules

end Highlighting
