/-!
Spans of byte offsets.

A span is a pair of offsets, `start` included and `stop` not. It is kept exactly as given: a span
whose `stop` lies before its `start` is *inverted*; it holds no offset and counts as empty.
`Span.ofEnds` never builds an inverted span.
-/

namespace Highlighting

/-- A half-open range of byte offsets. -/
structure Span where
  start : Nat
  stop : Nat
deriving DecidableEq

namespace Span

/-- The offsets of a span. -/
instance : Membership Nat Span where
  mem s o := s.start ≤ o ∧ o < s.stop

instance (o : Nat) (s : Span) : Decidable (o ∈ s) :=
  inferInstanceAs (Decidable (s.start ≤ o ∧ o < s.stop))

theorem mem_iff {o : Nat} {s : Span} : o ∈ s ↔ s.start ≤ o ∧ o < s.stop :=
  Iff.rfl

/-- The span from `start` to `stop`, or the empty one at `start` if `stop` lies before it. -/
def ofEnds (start stop : Nat) : Span :=
  ⟨start, max start stop⟩

/-- The empty span at `offset`. -/
def emptyAt (offset : Nat) : Span :=
  ⟨offset, offset⟩

/-- The number of offsets in the span. -/
def length (s : Span) : Nat :=
  s.stop - s.start

def isEmpty (s : Span) : Bool :=
  s.stop ≤ s.start

def contains (s : Span) (offset : Nat) : Bool :=
  offset ∈ s

/-- Each span starts before the other stops. For spans that are not empty this says that they
share an offset. -/
def meets (s t : Span) : Bool :=
  s.start < t.stop && t.start < s.stop

/-- The offsets in both spans, if there are any. -/
def inter? (s t : Span) : Option Span :=
  let common : Span := ⟨max s.start t.start, min s.stop t.stop⟩
  if common.start < common.stop then some common else none

/-- From the smaller start to the larger stop. -/
def hull (s t : Span) : Span :=
  ⟨min s.start t.start, max s.stop t.stop⟩

/-- Moves ends past `limit` back to it. -/
def clampTo (s : Span) (limit : Nat) : Span :=
  ofEnds (min s.start limit) (min s.stop limit)

/-- By start, then by stop. -/
def order (s t : Span) : Ordering :=
  (compare s.start t.start).then (compare s.stop t.stop)

theorem start_le_stop_ofEnds (a b : Nat) : (ofEnds a b).start ≤ (ofEnds a b).stop :=
  Nat.le_max_left a b

theorem isEmpty_iff {s : Span} : s.isEmpty = true ↔ ∀ o, o ∉ s := by
  simp only [isEmpty, decide_eq_true_eq, mem_iff]
  constructor
  · intro h o
    omega
  · intro h
    have := h s.start
    omega

theorem mem_inter? {s t : Span} {o : Nat} : (∃ u, s.inter? t = some u ∧ o ∈ u) ↔ o ∈ s ∧ o ∈ t := by
  simp only [inter?, mem_iff]
  split
  · simp only [Option.some.injEq, exists_eq_left']
    omega
  · simp only [reduceCtorEq, false_and, exists_false, false_iff]
    omega

end Span

end Highlighting
