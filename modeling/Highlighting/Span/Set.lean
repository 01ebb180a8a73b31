import Highlighting.Span.Splice

/-!
Sets of byte offsets, stored as the list of their maximal spans.

The spans ascend, none is empty, and between two of them lies at least one offset outside the set,
so a set has one representation and equality of sets is equality of lists. Every operation keeps
this form, which `SpanSet.Normal` states; each is a single scan over the list.
-/

namespace Highlighting

/-- A finite set of offsets, as its maximal spans in ascending order. -/
structure SpanSet where
  spans : List Span
deriving DecidableEq

namespace SpanSet

/-- The offsets that lie in one of the spans. -/
instance : Membership Nat SpanSet where
  mem d o := ∃ s ∈ d.spans, o ∈ s

theorem mem_iff {o : Nat} {d : SpanSet} : o ∈ d ↔ ∃ s ∈ d.spans, o ∈ s :=
  Iff.rfl

def empty : SpanSet :=
  ⟨[]⟩

def isEmpty (d : SpanSet) : Bool :=
  d.spans.isEmpty

/-- The number of offsets in the set. -/
def total (d : SpanSet) : Nat :=
  d.spans.foldr (fun s count => s.length + count) 0

/-- Merges `s` with the spans that it overlaps or touches. -/
def insertSpan (s : Span) : List Span → List Span
  | [] => [s]
  | r :: rest =>
    if r.stop < s.start then r :: insertSpan s rest
    else if s.stop < r.start then s :: r :: rest
    else insertSpan (s.hull r) rest

def insert (d : SpanSet) (s : Span) : SpanSet :=
  if s.isEmpty then d else ⟨insertSpan s d.spans⟩

def insertAll (d : SpanSet) (ss : List Span) : SpanSet :=
  ss.foldl insert d

def ofList (ss : List Span) : SpanSet :=
  empty.insertAll ss

/-- What is left of `r` before and after `s`. -/
def cutOut (s r : Span) : List Span :=
  [⟨r.start, min r.stop s.start⟩, ⟨max r.start s.stop, r.stop⟩].filter fun t => !t.isEmpty

def erase (d : SpanSet) (s : Span) : SpanSet :=
  if s.isEmpty then d else ⟨d.spans.flatMap (cutOut s)⟩

def eraseAll (d : SpanSet) (ss : List Span) : SpanSet :=
  ss.foldl erase d

/-- The part of the set inside `s`. -/
def within (d : SpanSet) (s : Span) : SpanSet :=
  ⟨d.spans.filterMap (·.inter? s)⟩

/-- Every offset of `s` is in the set. Maximal spans do not touch, so one of them has to hold all
of `s`. -/
def covers (d : SpanSet) (s : Span) : Bool :=
  s.isEmpty || d.spans.any fun r => r.start ≤ s.start && s.stop ≤ r.stop

/-- The offsets of the set below `limit`. -/
def truncate (d : SpanSet) (limit : Nat) : SpanSet :=
  ⟨d.spans.filterMap fun r =>
    if r.start < min r.stop limit then some ⟨r.start, min r.stop limit⟩ else none⟩

/-- Carries every span through the splice. Spans that grow into one another merge. -/
def splice (d : SpanSet) (e : Splice) : SpanSet :=
  ofList (d.spans.map e.carry)

end SpanSet

end Highlighting
