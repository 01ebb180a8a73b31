import Highlighting.Span

/-!
Splices: the replacement of a span of bytes by new ones, seen only through offsets.

Offsets before the replaced span stay, offsets at or after its end move by the change in length,
and the offsets in between have no image.
-/

namespace Highlighting

/-- The replacement of the bytes of `old` by `size` new ones. -/
structure Splice where
  old : Span
  size : Nat
deriving DecidableEq

namespace Splice

/-- The span of the new bytes. -/
def fresh (e : Splice) : Span :=
  .ofEnds e.old.start (e.old.start + e.size)

/-- Where an offset at or after the end of the replaced span goes. -/
def image (e : Splice) (offset : Nat) : Nat :=
  offset - e.old.stop + e.old.start + e.size

/-- The image of a span of marked bytes. One that touches the replaced span grows over all of the
new bytes, so that no mark is lost. -/
def carry (e : Splice) (s : Span) : Span :=
  if s.stop < e.old.start then s
  else if e.old.stop < s.start then .ofEnds (e.image s.start) (e.image s.stop)
  else .ofEnds (min s.start e.old.start)
    (if e.old.stop < s.stop then e.image s.stop else e.old.start + e.size)

theorem image_stop (e : Splice) : e.image e.old.stop = e.old.start + e.size := by
  simp [image]

end Splice

end Highlighting
