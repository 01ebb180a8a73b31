import Highlighting.Tree.Basic

/-!
Keeping a syntax tree in step with a document.

A tree is parsed anew from the one before only if the edits lead from its text to the new snapshot,
as far as revisions and lengths tell. Otherwise the text is parsed from scratch and all of it counts
as changed.

The parsing library may give up on a text. Then the old tree is dropped, so that the next attempt
starts from scratch, and the failed attempts at one revision are counted.
-/

namespace Highlighting

/-- How a tree came about. -/
inductive ParseMode where
  /-- The first parse. -/
  | initial
  /-- From the tree before and the edits since. -/
  | incremental
  /-- From scratch, because there was no tree or the edits did not fit it. -/
  | fullReparse
  /-- The tree was already that of the snapshot. -/
  | skipped
deriving DecidableEq

def ParseMode.name : ParseMode → String
  | initial => "Initial"
  | incremental => "Incremental"
  | fullReparse => "FullReparse"
  | skipped => "Skipped"

/-- What the parsing library answers: the captures of the new tree, and the spans whose structure
differs from the old tree. -/
structure Parse where
  captures : List Capture
  changed : List Span
deriving DecidableEq

/-- The parsing library for one grammar. It parses a snapshot, from scratch or from an old tree and
the edits that lead from it to the snapshot, and may give up. -/
abbrev FallibleParser := Option (SyntaxTree × List Edit) → Snapshot → Option Parse

/-- A parsing library that always answers. -/
abbrev Parser := Option (SyntaxTree × List Edit) → Snapshot → Parse

/-- A new tree, and where it differs from the one before. -/
structure ParseOutcome where
  tree : SyntaxTree
  changed : List Span
  mode : ParseMode
deriving DecidableEq

namespace Snapshot

/-- Applies edits in order; `none` unless each leads to the next revision and can be applied. -/
def follow? (s : Snapshot) : List Edit → Option Snapshot
  | [] => some s
  | e :: rest =>
    if e.revision = s.revision + 1 then
      match s.apply e with
      | .ok s => s.follow? rest
      | .error _ => none
    else none

/-- The edits lead from `s` to a snapshot of the revision and length of `target`. -/
def leadsTo (s : Snapshot) (edits : List Edit) (target : Snapshot) : Bool :=
  match s.follow? edits with
  | none => false
  | some reached => reached.revision == target.revision && reached.size == target.size

end Snapshot

structure TreeKeeper where
  tree : Option SyntaxTree
  /-- How the last tree came about. It outlives the tree. -/
  lastMode : Option ParseMode
  /-- The revision of the last attempt and how many attempts at it failed in a row, if the last
  attempt failed. -/
  failures : Option (Revision × Nat)
deriving DecidableEq

namespace TreeKeeper

def empty : TreeKeeper :=
  ⟨none, none, none⟩

/-- A keeper for a grammar, if the parser can use its language. -/
def forGrammar (g : Grammar) : Except HighlightError TreeKeeper :=
  match g.checkAbi with
  | .error fault => .error fault
  | .ok _ => .ok empty

/-- Drops the tree, so that the next parse starts from scratch. -/
def discard (k : TreeKeeper) : TreeKeeper :=
  { k with tree := none }

/-- Nothing was edited since the tree was parsed, as far as revision and length tell. -/
def isCurrent (t : SyntaxTree) (edits : List Edit) (target : Snapshot) : Bool :=
  edits.isEmpty && t.revision == target.revision && t.snapshot.size == target.size

/-- The tree of `target` from scratch. -/
def parseAfresh (k : TreeKeeper) (parse : Parser) (target : Snapshot) : ParseOutcome :=
  let mode := if k.lastMode.isNone then .initial else .fullReparse
  ⟨⟨target, (parse none target).captures⟩, [target.whole], mode⟩

/-- The tree of `target` from the old tree. Empty changes do not count. -/
def parseFrom (t : SyntaxTree) (parse : Parser) (edits : List Edit) (target : Snapshot) :
    ParseOutcome :=
  let answer := parse (some (t, edits)) target
  let changed := answer.changed.filter fun s => !s.isEmpty
  ⟨⟨target, answer.captures⟩, changed, .incremental⟩

/-- How the tree of `target` comes about. -/
def outcome (k : TreeKeeper) (parse : Parser) (edits : List Edit) (target : Snapshot) :
    ParseOutcome :=
  match k.tree with
  | none => k.parseAfresh parse target
  | some t =>
    if isCurrent t edits target then ⟨t, [], .skipped⟩
    else if t.snapshot.leadsTo edits target then parseFrom t parse edits target
    else k.parseAfresh parse target

/-- Brings the tree up to `target` with a parser that always answers. -/
def reparse (k : TreeKeeper) (parse : Parser) (edits : List Edit) (target : Snapshot) :
    ParseOutcome × TreeKeeper :=
  let result := k.outcome parse edits target
  let failures := if result.mode = .skipped then k.failures else none
  (result, ⟨some result.tree, some result.mode, failures⟩)

/-- How many attempts at a revision failed in a row. -/
def failureCount (k : TreeKeeper) (revision : Revision) : Nat :=
  match k.failures with
  | none => 0
  | some (failed, count) => if failed = revision then count else 0

/-- What the parser is asked to start from; `none` if it is not asked, as the tree is current. -/
def asks (k : TreeKeeper) (edits : List Edit) (target : Snapshot) :
    Option (Option (SyntaxTree × List Edit)) :=
  match k.tree with
  | none => some none
  | some t =>
    if isCurrent t edits target then none
    else if t.snapshot.leadsTo edits target then some (some (t, edits))
    else some none

/-- The parser gave up on a revision. -/
def fail (k : TreeKeeper) (revision : Revision) : TreeKeeper :=
  { k with tree := none, failures := some (revision, k.failureCount revision + 1) }

/-- The answer of the parser, an empty one if it is not asked; `none` if it gives up. -/
def answer? (k : TreeKeeper) (parse : FallibleParser) (edits : List Edit) (target : Snapshot) :
    Option Parse :=
  match k.asks edits target with
  | none => some ⟨[], []⟩
  | some old => parse old target

/-- Brings the tree up to `target`, unless the parser gives up. -/
def attempt (k : TreeKeeper) (parse : FallibleParser) (edits : List Edit) (target : Snapshot) :
    Except HighlightError ParseOutcome × TreeKeeper :=
  match k.answer? parse edits target with
  | none => (.error (.parseFailed target.revision), k.fail target.revision)
  | some answer =>
    let (result, k) := k.reparse (fun _ _ => answer) edits target
    (.ok result, k)

/-- The summary line. -/
def describe (k : TreeKeeper) : String :=
  let revision := match k.tree with
    | none => "None"
    | some t => s!"Some({t.revision})"
  let mode := match k.lastMode with
    | none => "None"
    | some mode => s!"Some({mode.name})"
  let failures := match k.failures with
    | none => "None"
    | some (revision, count) => s!"Some(({revision}, {count}))"
  s!"ParserAdapter \x7b revision: {revision}, last_mode: {mode}, failures: {failures} \x7d"

end TreeKeeper

end Highlighting
