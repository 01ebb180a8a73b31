import Highlighting.Proofs.Index.Canonical
import Mathlib.Data.Set.Image

/-!
What an edit does to the index, exactly.

The replaced span is compared with each stored run. Runs that end at its start or before stay, runs
that start at its end or behind it move, and all others are dropped (`Splice.CutsInto`). So an
insertion drops the run that it falls into, and none of the two that it falls between. What is left
may touch where the deleted bytes were, and is joined there.

The answer is the region around the replaced span and the dropped runs. Outside the new bytes it
holds just the bytes of dropped runs, because none of them ends before the replaced span or starts
behind it.

Offsets move by a difference that is taken first (`Splice.image`). Computed with offsets of 64 bits
it fails neither for a run that moves nor for the end of the region, since they do not lie before
the end of the replaced span.
-/

namespace Highlighting

/-! ### Offsets of 64 bits -/

namespace Offset

/-- The first number that takes more than 64 bits. -/
def limit : Nat :=
  Nat.pow 2 64

/-- The difference, unless it would be negative. -/
def sub? (a b : Nat) : Option Nat :=
  if b ≤ a then some (a - b) else none

/-- The sum, unless it takes more than 64 bits. -/
def add? (a b : Nat) : Option Nat :=
  if a + b < limit then some (a + b) else none

theorem sub?_eq {a b : Nat} (le : b ≤ a) : sub? a b = some (a - b) :=
  if_pos le

theorem add?_eq {a b : Nat} (fits : a + b < limit) : add? a b = some (a + b) :=
  if_pos fits

end Offset

namespace Splice

/-- Where an offset at or after the end of the replaced span goes, step by step. -/
def image? (e : Splice) (offset : Nat) : Option Nat := do
  Offset.add? (← Offset.add? (← Offset.sub? offset e.old.stop) e.old.start) e.size

/-- The span of the new bytes. -/
def fresh? (e : Splice) : Option Span := do
  return .ofEnds e.old.start (← Offset.add? e.old.start e.size)

/-- The span has a byte in common with the replaced one, or an insertion falls into it. -/
def CutsInto (e : Splice) (s : Span) : Prop :=
  if e.old.start = e.old.stop then s.start < e.old.start ∧ e.old.start < s.stop
  else ∃ o, o ∈ s ∧ o ∈ e.old

/-- Where an offset outside the replaced span goes. -/
def move (e : Splice) (offset : Nat) : Nat :=
  if offset < e.old.start then offset else e.image offset

variable {e : Splice} {o p : Nat}

theorem image?_eq (behind : e.old.stop ≤ o) (fits : e.image o < Offset.limit) :
    e.image? o = some (e.image o) := by
  rw [image] at fits
  have middle : o - e.old.stop + e.old.start < Offset.limit := by omega
  simp only [image?, image, Offset.sub?_eq behind, Offset.add?_eq middle, Offset.add?_eq fits,
    Option.bind_eq_bind, Option.bind_some]

theorem fresh?_eq (fits : e.old.start + e.size < Offset.limit) : e.fresh? = some e.fresh := by
  rw [fresh?, Offset.add?_eq fits]
  rfl

/-- The offsets outside the replaced span go to those outside the new bytes. -/
theorem preimage?_eq_some_iff_move (upright : e.old.start ≤ e.old.stop) :
    e.preimage? o = some p ↔ p ∉ e.old ∧ e.move p = o := by
  rw [preimage?_eq_some_iff, Span.mem_iff, move, image]
  split <;> omega

end Splice

namespace StyleIndex

open StyleRun

/-- `moved` in steps. -/
def moved? (e : Splice) (r : StyleRun) : Option StyleRun := do
  return ⟨⟨← e.image? r.span.start, ← e.image? r.span.stop⟩, r.category⟩

/-- `lost` in steps. -/
def lost? (x : StyleIndex) (e : Splice) : Option (Option Span) :=
  match x.runs.filter (isDropped e) with
  | [] => some none
  | dropped => do
    let reach := dropped.foldl (fun s r => s.hull r.span) e.old
    let region := Span.ofEnds reach.start (← e.image? reach.stop)
    let fresh ← e.fresh?
    return if region = fresh then none else some region

/-- Follows an edit with offsets of 64 bits: the answer, and the index after it. `none` if a
difference would be negative or a sum too large. -/
def follow? (x : StyleIndex) (e : Splice) : Option (Option Span × StyleIndex) := do
  let region ← x.lost? e
  let shifted ← (x.runs.filter (isMoved e)).mapM (moved? e)
  return (region, ⟨coalesce (x.runs.filter (isKept e) ++ shifted)⟩)

/-- All offsets that an edit moves fit into 64 bits: for each run that ends behind the start of the
replaced span its end, or the end of the replaced span if the run ends before that. -/
def Fits (x : StyleIndex) (e : Splice) : Prop :=
  ∀ r ∈ x.runs, e.old.start < r.span.stop → e.image (max r.span.stop e.old.stop) < Offset.limit

variable {x : StyleIndex} {e : Splice} {r : StyleRun} {o p : Nat}

/-! ### No step fails -/

theorem start_lt_stop_of_isMoved (moves : isMoved e r = true) : e.old.start < r.span.stop := by
  simp only [isMoved, isKept, Bool.and_eq_true, Bool.not_eq_true', decide_eq_false_iff_not] at moves
  omega

theorem moved?_eq (nonempty : r.span.start < r.span.stop) (moves : isMoved e r = true)
    (fits : e.image (max r.span.stop e.old.stop) < Offset.limit) : moved? e r = some (moved e r) := by
  have behind := isMoved_start_le moves
  rw [Nat.max_eq_left (by omega)] at fits
  have starts : e.image r.span.start < Offset.limit := by
    simp only [Splice.image] at fits ⊢
    omega
  simp [moved?, moved, Splice.image?_eq behind starts, Splice.image?_eq (by omega) fits]

theorem mapM_moved?_eq {runs : List StyleRun}
    (fits : ∀ r ∈ runs, moved? e r = some (moved e r)) :
    runs.mapM (moved? e) = some (runs.map (moved e)) := by
  induction runs with
  | nil => rfl
  | cons r rest ih =>
      obtain ⟨first, others⟩ := List.forall_mem_cons.mp fits
      simp [List.mapM_cons, first, ih others]

/-- If a run is dropped, the new bytes and the region end inside 64 bits. -/
theorem Fits.bounds (fits : x.Fits e) (upright : e.old.start ≤ e.old.stop) (stored : r ∈ x.runs)
    (dropped : isDropped e r = true) :
    e.old.start + e.size < Offset.limit ∧ e.image (x.reach e).stop < Offset.limit := by
  have fit : ∀ t ∈ x.runs, isDropped e t = true →
      max t.span.stop e.old.stop - e.old.stop + e.old.start + e.size < Offset.limit :=
    fun t ht dropped => fits t ht ((isDropped_iff upright).mp dropped).1
  have new := fit r stored dropped
  -- No dropped run ends behind the last offset that moves to one of 64 bits.
  have last : (x.reach e).stop ≤ Offset.limit - 1 - (e.old.start + e.size) + e.old.stop := by
    refine stop_reach_le.mpr ⟨Nat.le_add_left _ _, fun t ht dropped => ?_⟩
    have := fit t ht dropped
    omega
  rw [Splice.image]
  omega

theorem lost?_eq (upright : e.old.start ≤ e.old.stop) (fits : x.Fits e) :
    x.lost? e = some (x.lost e) := by
  rw [lost?]
  split
  · rename_i nothing
    simp only [lost, nothing]
  · rename_i dropped
    obtain ⟨r, hr⟩ := List.exists_mem_of_ne_nil _ dropped
    obtain ⟨stored, drops⟩ := List.mem_filter.mp hr
    obtain ⟨new, last⟩ := fits.bounds upright stored drops
    have stop := Splice.image?_eq (x.old_le_reach e).2 last
    have fresh := Splice.fresh?_eq new
    rw [reach] at stop
    rw [lost_eq, region, reach]
    simp only [stop, fresh, Option.bind_eq_bind, Option.bind_some]
    rfl

/-- Offsets of 64 bits are enough. -/
theorem follow?_eq (ascending : Ascending x.runs) (upright : e.old.start ≤ e.old.stop)
    (fits : x.Fits e) : x.follow? e = some (x.lost e, x.apply e) := by
  have shifted : (x.runs.filter (isMoved e)).mapM (moved? e) =
      some ((x.runs.filter (isMoved e)).map (moved e)) := by
    refine mapM_moved?_eq fun r hr => ?_
    obtain ⟨stored, moves⟩ := List.mem_filter.mp hr
    exact moved?_eq (ascending.nonempty r stored) moves
      (fits r stored (start_lt_stop_of_isMoved moves))
  simp [follow?, lost?_eq upright fits, shifted, apply]

/-! ### What is dropped -/

theorem isDropped_iff_cutsInto (nonempty : r.span.start < r.span.stop)
    (upright : e.old.start ≤ e.old.stop) : isDropped e r = true ↔ e.CutsInto r.span := by
  rw [isDropped_iff upright, Splice.CutsInto]
  split
  · omega
  · constructor
    · intro apart
      refine ⟨max r.span.start e.old.start, ?_⟩
      simp only [Span.mem_iff]
      omega
    · rintro ⟨o, inside, replaced⟩
      simp only [Span.mem_iff] at inside replaced
      omega

theorem region_eq_fresh_iff : x.region e = e.fresh ↔
    ∀ r ∈ x.runs, isDropped e r = true → e.old.start ≤ r.span.start ∧ r.span.stop ≤ e.old.stop := by
  obtain ⟨starts, stops⟩ := x.old_le_reach e
  have ends : x.region e = e.fresh ↔
      e.old.start ≤ (x.reach e).start ∧ (x.reach e).stop ≤ e.old.stop := by
    simp only [region, Splice.fresh, Span.ofEnds, Span.mk.injEq, Splice.image]
    omega
  rw [ends, le_start_reach, stop_reach_le]
  simp only [Nat.le_refl, true_and, ← forall_and]

/-- Beside the new bytes the region holds just what the dropped runs have left. -/
theorem mem_region_of_not_mem_fresh (upright : e.old.start ≤ e.old.stop) :
    o ∈ x.region e ∧ o ∉ e.fresh ↔
      ∃ p, e.preimage? o = some p ∧ ∃ r ∈ x.runs, isDropped e r = true ∧ p ∈ r.span := by
  rw [mem_region upright, ← Splice.preimage?_eq_none_iff]
  constructor
  · rintro ⟨new | moved, notNew⟩
    · exact absurd new notNew
    · exact moved
  · rintro ⟨p, moved, found⟩
    refine ⟨Or.inr ⟨p, moved, found⟩, ?_⟩
    rw [moved]
    exact Option.some_ne_none p

/-! ### What is read -/

/-- A byte in no run reads as unclassified before and after. -/
theorem styleAt_apply_of_hole (upright : e.old.start ≤ e.old.stop) (moved : e.preimage? o = some p)
    (hole : ∀ r ∈ x.runs, p ∉ r.span) : (x.apply e).styleAt o = .unclassified := by
  rw [styleAt_apply_of_survives upright moved fun r hr inside => absurd inside (hole r hr),
    styleAt_eq_categoryAt, categoryAt_of_not_mem hole]

/-- An edit drops just the runs that it cuts into. No offset falls below zero on the way, and none
leaves 64 bits as long as no result does. The index keeps its form; the new bytes read as
unclassified, and so does what was in a dropped run or in none; all other bytes read as they did.
Nothing is answered if the dropped runs were replaced as a whole, and else a region whose bytes
beside the new ones are those that the dropped runs have left. -/
theorem apply_drops_what_is_cut (reachable : Reachable x) (upright : e.old.start ≤ e.old.stop)
    (fits : x.Fits e) :
    x.follow? e = some (x.lost e, x.apply e) ∧
      Canonical (x.apply e).runs ∧
      (∀ o p, e.preimage? o = some p →
        ((∃ r ∈ x.runs, e.CutsInto r.span ∧ p ∈ r.span) ∨ (∀ r ∈ x.runs, p ∉ r.span) →
          (x.apply e).styleAt o = .unclassified) ∧
        (¬((∃ r ∈ x.runs, e.CutsInto r.span ∧ p ∈ r.span) ∨ (∀ r ∈ x.runs, p ∉ r.span)) →
          (x.apply e).styleAt o = x.styleAt p)) ∧
      (∀ o ∈ e.fresh, (x.apply e).styleAt o = .unclassified) ∧
      (x.lost e = none ↔ ∀ r ∈ x.runs, e.CutsInto r.span →
        e.old.start ≤ r.span.start ∧ r.span.stop ≤ e.old.stop) ∧
      ∀ region, x.lost e = some region →
        {o | o ∈ region ∧ o ∉ e.fresh} =
          e.move '' {p | p ∉ e.old ∧ ∃ r ∈ x.runs, e.CutsInto r.span ∧ p ∈ r.span} := by
  have ascending := reachable.canonical.ascending
  have cut : ∀ r ∈ x.runs, isDropped e r = true ↔ e.CutsInto r.span := fun r hr =>
    isDropped_iff_cutsInto (ascending.nonempty r hr) upright
  refine ⟨follow?_eq ascending upright fits, canonical_apply reachable.canonical e,
    fun o p moved => ⟨?_, fun stays => ?_⟩, fun o new => styleAt_apply_fresh new, ?_, ?_⟩
  · rintro (⟨r, hr, cuts, inside⟩ | hole)
    · exact styleAt_apply_of_dropped ascending moved hr inside ((cut r hr).mpr cuts)
    · exact styleAt_apply_of_hole upright moved hole
  · refine styleAt_apply_of_survives upright moved fun r hr inside => ?_
    rw [Bool.eq_false_iff]
    exact fun dropped => stays (Or.inl ⟨r, hr, (cut r hr).mp dropped, inside⟩)
  · rw [lost_eq, ite_eq_left_iff]
    simp only [reduceCtorEq, imp_false, not_not, region_eq_fresh_iff]
    exact forall₂_congr fun r hr => imp_congr_left (cut r hr)
  · intro region answered
    rw [lost_eq] at answered
    split at answered
    · cases answered
    · cases answered
      ext o
      rw [Set.mem_ofPred_eq, mem_region_of_not_mem_fresh upright, Set.mem_image]
      refine exists_congr fun p => ?_
      rw [Splice.preimage?_eq_some_iff_move upright, Set.mem_ofPred_eq, and_right_comm]
      refine and_congr_left' (and_congr_right fun _ => exists_congr fun r => ?_)
      exact and_congr_right fun hr => and_congr_left' (cut r hr)

/-- One run is cut at its end, another one before its middle. The region reaches from the start of
the first to where the end of the second goes. -/
theorem apply_over_two_runs :
    ∃ (x : StyleIndex) (e : Splice), Reachable x ∧ e.old.start ≤ e.old.stop ∧ x.Fits e ∧
      x.runs = [⟨⟨0, 4⟩, .styled 1⟩, ⟨⟨4, 6⟩, .styled 2⟩, ⟨⟨6, 10⟩, .styled 1⟩] ∧
      e = ⟨⟨5, 8⟩, 1⟩ ∧
      x.follow? e = some (some ⟨4, 8⟩, ⟨[⟨⟨0, 4⟩, .styled 1⟩]⟩) ∧
      Canonical (x.apply e).runs ∧
      (x.apply e).styleAt 3 = x.styleAt 3 ∧ (x.apply e).styleAt 7 = .unclassified ∧
      {o | o ∈ (⟨4, 8⟩ : Span) ∧ o ∉ e.fresh} =
        e.move '' {p | p ∉ e.old ∧ ∃ r ∈ x.runs, e.CutsInto r.span ∧ p ∈ r.span} := by
  have reachable : Reachable
      ⟨[⟨⟨0, 4⟩, .styled 1⟩, ⟨⟨4, 6⟩, .styled 2⟩, ⟨⟨6, 10⟩, .styled 1⟩]⟩ :=
    Reachable.start.call
      (.replace ⟨0, 10⟩ [⟨⟨0, 4⟩, .styled 1⟩, ⟨⟨4, 6⟩, .styled 2⟩, ⟨⟨6, 10⟩, .styled 1⟩])
  have fits : Fits ⟨[⟨⟨0, 4⟩, .styled 1⟩, ⟨⟨4, 6⟩, .styled 2⟩, ⟨⟨6, 10⟩, .styled 1⟩]⟩
      ⟨⟨5, 8⟩, 1⟩ := by
    unfold Fits
    decide
  obtain ⟨follows, canonical, reads, -, -, region⟩ :=
    apply_drops_what_is_cut reachable (e := ⟨⟨5, 8⟩, 1⟩) (by decide) fits
  have apart : ¬(⟨⟨5, 8⟩, 1⟩ : Splice).CutsInto ⟨0, 4⟩ := by
    rintro ⟨o, inside, replaced⟩
    exact Nat.not_lt.mpr replaced.1 (Nat.lt_trans inside.2 (by decide))
  have kept := (reads 3 3 rfl).2 (by simp [apart, Span.mem_iff])
  have dropped := (reads 7 9 rfl).1
    (Or.inl ⟨⟨⟨6, 10⟩, .styled 1⟩, by simp, ⟨6, by decide, by decide⟩, by decide⟩)
  exact ⟨_, _, reachable, by decide, fits, rfl, rfl, follows, canonical, kept, dropped,
    region _ rfl⟩

end StyleIndex

end Highlighting
