import Highlighting.Span

/-!
Style categories and styled runs.

A run gives one category to a span. `StyleRun.coalesce` is the normal form of a list of runs:
empty ones are dropped, and neighbours of one category that touch become one run.
-/

namespace Highlighting

/-- The number of a style. Styles are only told apart, never ordered. -/
abbrev StyleId := Nat

/-- What is known of a byte: nothing, or its style. -/
inductive Category where
  | unclassified
  | styled (style : StyleId)
deriving DecidableEq

namespace Category

instance : Inhabited Category := ⟨unclassified⟩

def isClassified : Category → Bool
  | unclassified => false
  | styled _ => true

def style? : Category → Option StyleId
  | unclassified => none
  | styled style => some style

def ofStyle? : Option StyleId → Category
  | none => unclassified
  | some style => styled style

end Category

/-- One category for all bytes of a span. -/
structure StyleRun where
  span : Span
  category : Category
deriving DecidableEq

namespace StyleRun

def unclassified (s : Span) : StyleRun :=
  ⟨s, .unclassified⟩

/-- The two runs touch and have one category, so that they are one run. -/
def joins (left right : StyleRun) : Bool :=
  left.category = right.category && left.span.stop = right.span.start

/-- The run from the start of `left` to the stop of `right`. -/
def join (left right : StyleRun) : StyleRun :=
  ⟨⟨left.span.start, right.span.stop⟩, left.category⟩

/-- Adds `r` behind the runs of `out`: an empty run adds nothing, and a run that joins the last one
prolongs it. -/
def push (out : List StyleRun) (r : StyleRun) : List StyleRun :=
  if r.span.isEmpty then out
  else match out with
    | [] => [r]
    | [last] => if last.joins r then [last.join r] else [last, r]
    | first :: second :: rest => first :: push (second :: rest) r

/-- Adds `r` in front of a list that is already coalesced. -/
def cons (r : StyleRun) (out : List StyleRun) : List StyleRun :=
  if r.span.isEmpty then out
  else match out with
    | [] => [r]
    | next :: rest => if r.joins next then r.join next :: rest else r :: next :: rest

/-- The normal form of a list of runs. -/
def coalesce (runs : List StyleRun) : List StyleRun :=
  runs.foldr cons []

end StyleRun

end Highlighting
