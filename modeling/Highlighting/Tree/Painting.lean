import Highlighting.Tree.Basic

/-!
Classification of a span from captures.

Every byte has the style of the strongest capture that covers it. The capture of a smaller node is
stronger; of nodes of one size, the deeper one; of one depth, the pattern of higher priority, then
the pattern declared later, then the capture that arrives later. Captures without a style do not
count.

`paint` finds the winners in one sweep from left to right. The strokes that are open are kept with
the strongest in front. One that has ended is dropped only when it comes to the front, so behind the
front there may be ended strokes.
-/

namespace Highlighting

/-- A capture with a style, clipped to the span that is classified. -/
structure Stroke where
  span : Span
  /-- The length of the whole node. -/
  nodeLength : Nat
  depth : Nat
  priority : Nat
  pattern : Nat
  style : StyleId
deriving DecidableEq

namespace Stroke

/-- `none` for a capture without a style or outside the span. -/
def ofCapture? (rules : Rules) (s : Span) (c : Capture) : Option Stroke := do
  let style ← rules.captureStyle? c.index
  let clipped ← c.node.inter? s
  return ⟨clipped, c.node.length, c.depth, rules.grammar.priority c.pattern, c.pattern, style⟩

/-- Compares strengths. -/
def order (a b : Stroke) : Ordering :=
  (compare b.nodeLength a.nodeLength).then
    ((compare a.depth b.depth).then
      ((compare a.priority b.priority).then (compare a.pattern b.pattern)))

end Stroke

/-- A stroke with its place among all strokes, the strongest having the highest rank. -/
structure Layer where
  rank : Nat
  span : Span
  style : StyleId
deriving DecidableEq

namespace Layer

/-- Ranks strokes by strength. The sort is stable, so of two equally strong strokes the later one
ranks higher. -/
def ofStrokes (strokes : List Stroke) : List Layer :=
  let sorted := strokes.mergeSort fun a b => (a.order b).isLE
  sorted.zipIdx.map fun (s, rank) => ⟨rank, s.span, s.style⟩

/-- Opens a layer among those that are open, which stand in order of falling rank. -/
def openAmong (l : Layer) : List Layer → List Layer
  | [] => [l]
  | top :: rest => if top.rank < l.rank then l :: top :: rest else top :: l.openAmong rest

/-- Drops ended layers from the front. -/
def expire (offset : Nat) (opened : List Layer) : List Layer :=
  opened.dropWhile (·.span.stop ≤ offset)

/-- The category that the layer in front gives. -/
def frontCategory : List Layer → Category
  | [] => .unclassified
  | l :: _ => .styled l.style

/-- Goes through neighbouring bounds with the layers that wait, in order of their starts, and those
that are open. Between two bounds no layer starts or ends. -/
def sweep : List Nat → List Layer → List Layer → List StyleRun
  | offset :: next :: bounds, waiting, opened =>
    let (starting, waiting) := waiting.span (·.span.start ≤ offset)
    let opened := expire offset (starting.foldl (fun o l => l.openAmong o) opened)
    ⟨⟨offset, next⟩, frontCategory opened⟩ :: sweep (next :: bounds) waiting opened
  | _, _, _ => []

/-- The offsets at which a category may change inside `s`, ascending. -/
def bounds (s : Span) (layers : List Layer) : List Nat :=
  ((layers.flatMap fun l => [l.span.start, l.span.stop]) ++ [s.start, s.stop]).mergeSort.eraseReps

end Layer

/-- The categories that strokes inside `s` give its bytes. -/
def paint (s : Span) (strokes : List Stroke) : List StyleRun :=
  let layers := Layer.ofStrokes strokes
  let waiting := layers.mergeSort fun a b => a.span.start ≤ b.span.start
  StyleRun.coalesce (Layer.sweep (Layer.bounds s layers) waiting [])

namespace Rules

/-- Classifies a span from the captures that the query reports for it. The result is a coalesced
tiling of the span. -/
def classify (rules : Rules) (captures : List Capture) (s : Span) : List StyleRun :=
  if s.isEmpty then []
  else match rules.grammar.query with
    | none => [.unclassified s]
    | some _ => paint s (captures.filterMap (Stroke.ofCapture? rules s))

end Rules

namespace SyntaxTree

/-- Classifies a span of the tree's text. -/
def classify (t : SyntaxTree) (rules : Rules) (s : Span) : List StyleRun :=
  rules.classify (t.capturesIn s) s

end SyntaxTree

end Highlighting
