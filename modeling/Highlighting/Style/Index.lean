import Highlighting.Span.Splice
import Highlighting.Style

/-!
The style index: which category each byte of the document was last given.

Runs ascend, are disjoint and not empty, and no two that touch have one category. Every operation
keeps this form, which `StyleRun.Canonical` states. A byte in no run reads as unclassified, so a run
stored as unclassified and a hole read alike.

`StyleIndex.apply` follows an edit at once: runs that overlap the replaced bytes are dropped rather
than trimmed, because what they said about the bytes around the edit may no longer hold.
-/

namespace Highlighting

/-- Why a list of runs does not tile a span. -/
inductive TilingError where
  /-- A run starts past the end of the one before it. -/
  | gap (offset : Nat)
  /-- A run starts before the end of the one before it. -/
  | overlap (offset : Nat)
  /-- The last run ends elsewhere than the span does. -/
  | extent (expected actual : Nat)
  | emptyPiece (offset : Nat)
deriving DecidableEq

def TilingError.message : TilingError → String
  | gap offset => s!"replacement leaves a gap at byte {offset}"
  | overlap offset => s!"replacement ranges overlap at byte {offset}"
  | extent expected actual =>
    s!"replacement covers ..{actual} but the replaced range ends at {expected}"
  | emptyPiece offset => s!"replacement contains an empty range at byte {offset}"

/-- Checks that the runs are not empty, follow one another without gap or overlap from `cursor`
on, and end at `stop`. The first fault in the order of the runs is reported. -/
def checkTiling (cursor stop : Nat) : List StyleRun → Except TilingError Unit
  | [] => if cursor = stop then .ok () else .error (.extent stop cursor)
  | r :: rest =>
    if r.span.isEmpty then .error (.emptyPiece r.span.start)
    else if cursor < r.span.start then .error (.gap cursor)
    else if r.span.start < cursor then .error (.overlap r.span.start)
    else checkTiling r.span.stop stop rest

/-- The categories of a document's bytes. -/
structure StyleIndex where
  runs : List StyleRun
deriving DecidableEq

namespace StyleIndex

def empty : StyleIndex :=
  ⟨[]⟩

def isEmpty (x : StyleIndex) : Bool :=
  x.runs.isEmpty

/-- The number of stored runs. -/
def size (x : StyleIndex) : Nat :=
  x.runs.length

def styleAt (x : StyleIndex) (offset : Nat) : Category :=
  match x.runs.find? (·.span.contains offset) with
  | some r => r.category
  | none => .unclassified

/-- The parts of the runs below `limit`. -/
def below (limit : Nat) (runs : List StyleRun) : List StyleRun :=
  runs.filterMap fun r =>
    if r.span.start < limit then some ⟨⟨r.span.start, min r.span.stop limit⟩, r.category⟩ else none

/-- The parts of the runs at or above `limit`. -/
def above (limit : Nat) (runs : List StyleRun) : List StyleRun :=
  runs.filterMap fun r =>
    if limit < r.span.stop then some ⟨⟨max r.span.start limit, r.span.stop⟩, r.category⟩ else none

/-- Gives `s` the categories of `pieces`, which have to tile it. -/
def replace (x : StyleIndex) (s : Span) (pieces : List StyleRun) : Except TilingError StyleIndex :=
  match checkTiling s.start s.stop pieces with
  | .error fault => .error fault
  | .ok _ =>
    if s.isEmpty then .ok x
    else .ok ⟨StyleRun.coalesce (below s.start x.runs ++ pieces ++ above s.stop x.runs)⟩

/-- The runs met by `s`, clipped to it, with unclassified ones in the holes from `cursor` on. -/
def fillHoles (s : Span) (cursor : Nat) : List StyleRun → List StyleRun
  | [] => [.unclassified ⟨cursor, s.stop⟩]
  | r :: rest =>
    match r.span.inter? s with
    | none => fillHoles s cursor rest
    | some common =>
      .unclassified ⟨cursor, common.start⟩ :: ⟨common, r.category⟩ :: fillHoles s common.stop rest

/-- The categories of the bytes of `s`: a coalesced tiling of it, holes included. -/
def query (x : StyleIndex) (s : Span) : List StyleRun :=
  if s.isEmpty then [] else StyleRun.coalesce (fillHoles s s.start x.runs)

/-- The run ends at or before the replaced bytes. -/
def isKept (e : Splice) (r : StyleRun) : Bool :=
  r.span.stop ≤ e.old.start

/-- The run starts at or after the end of the replaced bytes. A run that starts at the point of an
insertion moves with the text behind it. -/
def isMoved (e : Splice) (r : StyleRun) : Bool :=
  !isKept e r && (if e.old.isEmpty then e.old.start else e.old.stop) ≤ r.span.start

def isDropped (e : Splice) (r : StyleRun) : Bool :=
  !isKept e r && !isMoved e r

def moved (e : Splice) (r : StyleRun) : StyleRun :=
  ⟨⟨e.image r.span.start, e.image r.span.stop⟩, r.category⟩

/-- The region, in offsets after the edit, that lost its categories by dropping runs; `none` if
that is nothing beyond the new bytes. -/
def lost (x : StyleIndex) (e : Splice) : Option Span :=
  match x.runs.filter (isDropped e) with
  | [] => none
  | dropped =>
    let reach := dropped.foldl (fun s r => s.hull r.span) e.old
    let region := Span.ofEnds reach.start (e.image reach.stop)
    if region = e.fresh then none else some region

/-- Follows an edit. The new bytes and the bytes of dropped runs become unclassified. -/
def apply (x : StyleIndex) (e : Splice) : StyleIndex :=
  ⟨StyleRun.coalesce
    (x.runs.filter (isKept e) ++ (x.runs.filter (isMoved e)).map (moved e))⟩

/-- The insertion (`delta` not negative) or deletion of bytes at `offset`. -/
def shiftSplice (offset : Nat) (delta : Int) : Splice :=
  if 0 ≤ delta then ⟨.emptyAt offset, delta.toNat⟩ else ⟨⟨offset, offset + delta.natAbs⟩, 0⟩

end StyleIndex

end Highlighting
