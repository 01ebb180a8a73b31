import Highlighting.Grammar.Basic
import Highlighting.Grammar.FileExtension

/-!
The registry of languages, found by name, by file extension or by path.

Asking for a source of classification always gives one: without a grammar for an unknown language,
with a grammar without patterns for a malformed query. The error comes beside it.
-/

namespace Highlighting

/-- Configurations with ascending names (`Ordered`). -/
structure Registry where
  configs : List GrammarConfig

namespace Registry

def empty : Registry :=
  ⟨[]⟩

/-- Registers a language, in place of the one of that name. -/
def register (r : Registry) (c : GrammarConfig) : Registry :=
  ⟨insertByName GrammarConfig.name c r.configs⟩

def ofList (configs : List GrammarConfig) : Registry :=
  configs.foldl register empty

def get? (r : Registry) (name : String) : Option GrammarConfig :=
  r.configs.find? (·.name = name)

def names (r : Registry) : List String :=
  r.configs.map GrammarConfig.name

/-- The first language by name that has an extension. Leading dots and the case of ASCII letters do
not matter. -/
def languageForExtension? (r : Registry) (extension : String) : Option String :=
  let wanted := (bareExtension extension).toLower
  (r.configs.find? fun c => c.extensions.any fun e => e.toLower = wanted).map GrammarConfig.name

def languageForPath? (r : Registry) (path : String) : Option String :=
  FileExtension.ofPath? path >>= r.languageForExtension?

/-- Compiles the grammar of a language. -/
def load (r : Registry) (name : String) : Except HighlightError Grammar :=
  match r.get? name with
  | none => .error (.unknownLanguage name)
  | some c => Grammar.compile c

/-- The grammar to classify with, if there is one, and what went wrong. -/
def sourceFor (r : Registry) (name : String) : Option Grammar × Option HighlightError :=
  match r.get? name with
  | none => (none, some (.unknownLanguage name))
  | some c => let (g, fault) := Grammar.compileOrBare c; (some g, fault)

end Registry

/-- The name of a source of classification; text without a grammar is plain. -/
def sourceName : Option Grammar → String
  | none => "plain"
  | some g => g.name

end Highlighting
