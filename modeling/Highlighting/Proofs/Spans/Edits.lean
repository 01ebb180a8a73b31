import Highlighting.Proofs.Index.Edits
import Mathlib.Order.Interval.Set.Defs

/-!
What an edit does to a span set, exactly.

Each stored span is carried through the edit by itself. Its bytes before the replaced span stay and
those behind it move, and a span that touches the replaced one takes all of the new bytes along. A
span touches also if it only ends where the replaced one starts, or starts where that one ends, so a
mark next to an edit spreads over what was written there. Inserting the carried spans one after
another joins those that grew into one another, and those that a deletion has brought together.

Ends of spans move by a difference that is taken first. With offsets of 64 bits it is never
negative, since only ends behind the replaced span are moved, and no sum leaves 64 bits as long as
the ends of the carried spans do not.
-/

namespace Highlighting

namespace Splice

/-- `carry` in steps. -/
def carry? (e : Splice) (s : Span) : Option Span :=
  if s.stop < e.old.start then some s
  else if e.old.stop < s.start then do
    return .ofEnds (← e.image? s.start) (← e.image? s.stop)
  else do
    let stop ← if e.old.stop < s.stop then e.image? s.stop else Offset.add? e.old.start e.size
    return .ofEnds (min s.start e.old.start) stop

variable {e : Splice} {s : Span} {o : Nat}

/-- A step fails only if an end that moves goes past 64 bits. -/
theorem carry?_eq (nonempty : s.start < s.stop)
    (fits : e.old.start ≤ s.stop → e.image (max s.stop e.old.stop) < Offset.limit) :
    e.carry? s = some (e.carry s) := by
  unfold carry? carry
  split
  · rfl
  · rename_i reaches
    have bounded := fits (Nat.le_of_not_lt reaches)
    split
    · rename_i behind
      rw [Nat.max_eq_left (by omega)] at bounded
      have starts : e.image s.start < Offset.limit := by
        simp only [image] at bounded ⊢
        omega
      simp [image?_eq (Nat.le_of_lt behind) starts, image?_eq (by omega) bounded]
    · split
      · rename_i further
        rw [Nat.max_eq_left (Nat.le_of_lt further)] at bounded
        simp [image?_eq (Nat.le_of_lt further) bounded]
      · rename_i inside
        rw [Nat.max_eq_right (Nat.le_of_not_lt inside), image_stop] at bounded
        simp [Offset.add?_eq bounded]

/-- The offsets with an image are those before the replaced span and those behind it. -/
theorem exists_preimage_iff (bytes : Set Nat) :
    (∃ p ∈ bytes, e.preimage? o = some p) ↔
      o ∈ bytes ∧ o < e.old.start ∨ ∃ p ∈ bytes, e.old.stop ≤ p ∧ e.image p = o := by
  simp only [preimage?_eq_some_iff, image]
  constructor
  · rintro ⟨p, mem, ⟨before, rfl⟩ | ⟨behind, rfl⟩⟩
    · exact Or.inl ⟨mem, before⟩
    · exact Or.inr ⟨_, mem, by omega, by omega⟩
  · rintro (⟨mem, before⟩ | ⟨p, mem, behind, rfl⟩)
    · exact ⟨o, mem, Or.inl ⟨before, rfl⟩⟩
    · exact ⟨p, mem, Or.inr ⟨by omega, by omega⟩⟩

end Splice

namespace SpanSet

/-- `splice` in steps: a span is carried and inserted before the next one is looked at. -/
def splice? (d : SpanSet) (e : Splice) : Option SpanSet :=
  d.spans.foldlM (fun out s => do return out.insert (← e.carry? s)) empty

/-- The ends of all spans that an edit moves or makes grow fit into 64 bits. -/
def Fits (d : SpanSet) (e : Splice) : Prop :=
  ∀ s ∈ d.spans, e.old.start ≤ s.stop → e.image (max s.stop e.old.stop) < Offset.limit

variable {d : SpanSet} {e : Splice} {o : Nat}

theorem foldlM_carry?_eq {spans : List Span} (carried : ∀ s ∈ spans, e.carry? s = some (e.carry s))
    (out : SpanSet) :
    spans.foldlM (fun out s => do return out.insert (← e.carry? s)) out =
      some (out.insertAll (spans.map e.carry)) := by
  induction spans generalizing out with
  | nil => rfl
  | cons s rest ih =>
      obtain ⟨first, others⟩ := List.forall_mem_cons.mp carried
      rw [List.foldlM_cons, first]
      exact ih others (out.insert (e.carry s))

/-- Offsets of 64 bits are enough. -/
theorem splice?_eq (normal : d.Normal) (fits : d.Fits e) : d.splice? e = some (d.splice e) :=
  foldlM_carry?_eq (fun s hs => Splice.carry?_eq (normal.nonempty s hs) (fits s hs)) empty

/-- An edit leaves the bytes before the replaced span, moves those behind it, and marks all of the
new bytes if a stored span touches the replaced one, else none of them. No offset falls below zero
on the way, none leaves 64 bits as long as no result does, and the set keeps its form. -/
theorem splice_moves_and_spreads (normal : d.Normal) (upright : e.old.start ≤ e.old.stop)
    (fits : d.Fits e) :
    d.splice? e = some (d.splice e) ∧ (d.splice e).Normal ∧
      (d.splice e).bytes =
        (d.bytes ∩ Set.Iio e.old.start) ∪ e.image '' (d.bytes ∩ Set.Ici e.old.stop) ∪
          {o | o ∈ Set.Ico e.old.start (e.old.start + e.size) ∧ ∃ s ∈ d.spans, e.Touches s} := by
  refine ⟨splice?_eq normal fits, normal_splice d e, ?_⟩
  ext o
  rw [mem_bytes, mem_splice_iff_touches upright normal.nonempty, Splice.mem_fresh]
  refine or_congr_left ((Splice.exists_preimage_iff d.bytes).trans (or_congr_right ?_))
  exact exists_congr fun p => and_assoc.symm

/-- The first span ends where the replaced one starts, the second lies inside it, and the third
starts where it ends: with the new byte they are one span. The last span moves. -/
theorem splice_between_spans :
    ∃ (d : SpanSet) (e : Splice), d = ⟨[⟨2, 4⟩, ⟨8, 9⟩, ⟨12, 15⟩, ⟨20, 22⟩]⟩ ∧ e = ⟨⟨4, 12⟩, 1⟩ ∧
      d.Normal ∧ e.old.start ≤ e.old.stop ∧ d.Fits e ∧
      d.splice? e = some ⟨[⟨2, 8⟩, ⟨13, 15⟩]⟩ ∧ (⟨[⟨2, 8⟩, ⟨13, 15⟩]⟩ : SpanSet).Normal ∧
      (⟨[⟨2, 8⟩, ⟨13, 15⟩]⟩ : SpanSet).bytes =
        (d.bytes ∩ Set.Iio 4) ∪ e.image '' (d.bytes ∩ Set.Ici 12) ∪
          {o | o ∈ Set.Ico 4 5 ∧ ∃ s ∈ d.spans, e.Touches s} := by
  have normal : Normal ⟨[⟨2, 4⟩, ⟨8, 9⟩, ⟨12, 15⟩, ⟨20, 22⟩]⟩ := ⟨by decide, by decide⟩
  have fits : Fits ⟨[⟨2, 4⟩, ⟨8, 9⟩, ⟨12, 15⟩, ⟨20, 22⟩]⟩ ⟨⟨4, 12⟩, 1⟩ := by
    unfold Fits
    decide
  obtain ⟨carried, normal', bytes⟩ :=
    splice_moves_and_spreads normal (e := ⟨⟨4, 12⟩, 1⟩) (by decide) fits
  exact ⟨_, _, rfl, rfl, normal, by decide, fits, carried, normal', bytes⟩

end SpanSet

end Highlighting
