import Highlighting.Proofs.Index.Replacement

/-!
Queries.

A query goes along the stored runs once. It clips them to the span and puts unclassified runs into
the holes, some of them empty, and coalescing drops these and joins the others. What comes out is
the coarsest tiling of the span by runs that give each offset the category it reads as
(`StyleRun.Depicts`). There is only one, so the answer tells nothing of what is stored beyond what
is read: a hole and a run stored as unclassified are answered alike.
-/

namespace Highlighting

namespace Span

variable {r s common : Span} {o : Nat}

theorem inter?_eq_some (meets : r.inter? s = some common) :
    common.start = max r.start s.start ∧ common.stop = min r.stop s.stop ∧
      common.start < common.stop := by
  simp only [inter?] at meets
  split at meets
  · rename_i nonempty
    cases meets
    exact ⟨rfl, rfl, nonempty⟩
  · cases meets

/-- Inside `s` a span has the offsets that it has in common with `s`. -/
theorem mem_iff_of_inter?_eq_some (meets : r.inter? s = some common) (inside : o ∈ s) :
    o ∈ r ↔ o ∈ common := by
  have both := mem_inter? (s := r) (t := s) (o := o)
  simpa [meets, inside] using both.symm

theorem not_mem_of_inter?_eq_none (apart : r.inter? s = none) (inside : o ∈ s) : o ∉ r := by
  have both := mem_inter? (s := r) (t := s) (o := o)
  simpa [apart, inside] using both

end Span

namespace StyleRun

/-- The runs tile the span, no two neighbours have one category, and each offset reads as the run
over it says. -/
structure Depicts (read : Nat → Category) (s : Span) (runs : List StyleRun) : Prop where
  tiles : Tiles s runs
  differ : runs.IsChain fun a b => a.category ≠ b.category
  reads : ∀ r ∈ runs, ∀ o ∈ r.span, read o = r.category

/-- The runs follow one another from `cursor` to `stop`; some may be empty. -/
def Follow (cursor stop : Nat) : List StyleRun → Prop
  | [] => cursor = stop
  | r :: rest => r.span.start = cursor ∧ cursor ≤ r.span.stop ∧ Follow r.span.stop stop rest

variable {read : Nat → Category} {s : Span} {runs others : List StyleRun} {o : Nat} {c : Category}

/-! ### One list depicts a reading -/

theorem Depicts.holds_iff (depicts : Depicts read s runs) : Holds runs o c ↔ o ∈ s ∧ read o = c := by
  have tiles := checkTiling_eq_ok_iff.mpr depicts.tiles
  constructor
  · rintro ⟨r, hr, inside, rfl⟩
    exact ⟨StyleIndex.mem_of_holds tiles ⟨r, hr, inside, rfl⟩, depicts.reads r hr o inside⟩
  · rintro ⟨inside, rfl⟩
    obtain ⟨r, hr, mem⟩ := depicts.tiles.exists_mem inside
    exact ⟨r, hr, mem, (depicts.reads r hr o mem).symm⟩

theorem Depicts.canonical (depicts : Depicts read s runs) : Canonical runs where
  ascending := ascending_of_checkTiling (checkTiling_eq_ok_iff.mpr depicts.tiles)
  apart := depicts.differ.imp fun _ _ differ => joins_eq_false_iff.mpr fun same => absurd same differ

theorem Depicts.unique (first : Depicts read s runs) (second : Depicts read s others) :
    runs = others := by
  apply first.canonical.eq_of_holds second.canonical
  intro o c
  rw [first.holds_iff, second.holds_iff]

/-- Only what is read inside the span matters. -/
theorem Depicts.congr {read' : Nat → Category} (depicts : Depicts read s runs)
    (same : ∀ o ∈ s, read o = read' o) : Depicts read' s runs where
  tiles := depicts.tiles
  differ := depicts.differ
  reads := by
    intro r hr o inside
    have within := (depicts.holds_iff.mp ⟨r, hr, inside, rfl⟩).1
    rw [← same o within, depicts.reads r hr o inside]

/-! ### Coalescing what follows -/

theorem Follow.checkTiling_coalesce {cursor stop : Nat} (follow : Follow cursor stop runs) :
    checkTiling cursor stop (coalesce runs) = .ok () := by
  induction runs generalizing cursor with
  | nil => exact StyleIndex.checkTiling_nil.mpr follow
  | cons r rest ih =>
      obtain ⟨start, upright, follow⟩ := follow
      exact StyleIndex.checkTiling_consRun start upright (ih follow)

/-- A tiling without two neighbours that are one run has no two neighbours of one category. -/
theorem differ_of_apart (tiles : checkTiling s.start s.stop runs = .ok ())
    (apart : runs.IsChain fun a b => a.joins b = false) :
    runs.IsChain fun a b => a.category ≠ b.category := by
  rcases Nat.lt_or_ge s.start s.stop with nonempty | empty
  · exact (coarsest_of_checkTiling tiles nonempty apart).chain.imp fun _ _ both => both.2
  · have upright := (StyleIndex.bounds_of_checkTiling tiles).1
    have none := (tiles_iff_of_empty (Nat.le_antisymm upright empty)).mp
      (checkTiling_eq_ok_iff.mp tiles)
    rw [none]
    exact List.IsChain.nil

end StyleRun

namespace StyleIndex

open StyleRun

variable {x y : StyleIndex} {s : Span} {runs : List StyleRun} {o cursor : Nat}

/-! ### Holes -/

/-- Behind the runs that were dealt with, the cursor has come no further than where the next run
starts inside the span. -/
theorem follow_fillHoles (ascending : Ascending runs) (within : cursor ≤ s.stop)
    (ahead : ∀ r ∈ runs, cursor ≤ max r.span.start s.start) :
    Follow cursor s.stop (fillHoles s cursor runs) := by
  induction runs generalizing cursor with
  | nil => exact ⟨rfl, within, rfl⟩
  | cons r rest ih =>
      obtain ⟨first, others⟩ := List.forall_mem_cons.mp ahead
      obtain ⟨behind, ordered⟩ := List.pairwise_cons.mp ascending.ordered
      have tail : Ascending rest := ⟨(List.forall_mem_cons.mp ascending.nonempty).2, ordered⟩
      rw [fillHoles]
      cases meets : r.span.inter? s with
      | none => exact ih tail within others
      | some common =>
          obtain ⟨starts, stops, nonempty⟩ := Span.inter?_eq_some meets
          have next : ∀ q ∈ rest, common.stop ≤ max q.span.start s.start := by
            intro q hq
            have := behind q hq
            omega
          have reached : cursor ≤ common.start := by omega
          have inside : common.stop ≤ s.stop := by omega
          exact ⟨rfl, reached, rfl, Nat.le_of_lt nonempty, ih tail inside next⟩

/-- From the cursor on the filled runs read like the stored ones. -/
theorem categoryAt_fillHoles (ascending : Ascending runs) (start : s.start ≤ cursor)
    (inside : o ∈ (⟨cursor, s.stop⟩ : Span)) :
    categoryAt (fillHoles s cursor runs) o = categoryAt runs o := by
  induction runs generalizing cursor with
  | nil => simp [fillHoles, StyleRun.categoryAt, StyleRun.unclassified]
  | cons r rest ih =>
      obtain ⟨own, others⟩ := List.forall_mem_cons.mp ascending.nonempty
      obtain ⟨behind, ordered⟩ := List.pairwise_cons.mp ascending.ordered
      have tail : Ascending rest := ⟨others, ordered⟩
      have within : o ∈ s := ⟨Nat.le_trans start inside.1, inside.2⟩
      rw [fillHoles]
      cases meets : r.span.inter? s with
      | none =>
          have outside := Span.not_mem_of_inter?_eq_none meets within
          simp only [categoryAt, outside, if_false]
          exact ih tail start inside
      | some common =>
          obtain ⟨starts, -, nonempty⟩ := Span.inter?_eq_some meets
          rcases Nat.lt_or_ge o common.start with before | past
          · have hole : o ∈ (StyleRun.unclassified ⟨cursor, common.start⟩).span :=
              ⟨inside.1, before⟩
            -- This run starts behind the offset, and all runs behind it do.
            have free : ∀ q ∈ r :: rest, o < q.span.start := by
              have own : o < r.span.start := by
                have := within.1
                omega
              refine List.forall_mem_cons.mpr ⟨own, fun q hq => ?_⟩
              have := behind q hq
              omega
            rw [categoryAt_of_not_mem fun q hq mem => Nat.not_le.mpr (free q hq) mem.1]
            exact if_pos hole
          · have filled : o ∉ (StyleRun.unclassified ⟨cursor, common.start⟩).span :=
              fun hole => Nat.not_le.mpr hole.2 past
            have same := Span.mem_iff_of_inter?_eq_some meets within
            simp only [categoryAt, filled, if_false, same]
            split
            · rfl
            · rename_i outside
              rw [Span.mem_iff] at outside
              exact ih tail (by omega) ⟨by dsimp only; omega, inside.2⟩

/-! ### What a query answers -/

theorem depicts_query (ascending : Ascending x.runs) (upright : s.start ≤ s.stop) :
    Depicts x.styleAt s (x.query s) := by
  rw [query]
  split
  · rename_i empty
    simp only [Span.isEmpty, decide_eq_true_eq] at empty
    exact ⟨tiles_nil.mpr (Nat.le_antisymm upright empty), List.IsChain.nil,
      List.forall_mem_nil _⟩
  · have ahead : ∀ r ∈ x.runs, s.start ≤ max r.span.start s.start :=
      fun r _ => Nat.le_max_right _ _
    have tiles := (follow_fillHoles ascending upright ahead).checkTiling_coalesce
    refine ⟨checkTiling_eq_ok_iff.mp tiles, differ_of_apart tiles (isChain_coalesce _), ?_⟩
    intro r hr o mem
    have inside : o ∈ s := mem_of_holds tiles ⟨r, hr, mem, rfl⟩
    have given := categoryAt_of_mem (ascending_of_checkTiling tiles) hr mem
    rw [categoryAt_coalesce, categoryAt_fillHoles ascending (Nat.le_refl _) inside] at given
    rw [styleAt_eq_categoryAt, given]

/-- A query answers the one coarsest tiling of its span that reads as the index does. So indices
that read alike inside a span answer alike, however their runs are stored. -/
theorem query_depicts_reading (reachable : Reachable x) (upright : s.start ≤ s.stop) :
    Depicts x.styleAt s (x.query s) ∧
      (∀ runs, Depicts x.styleAt s runs → runs = x.query s) ∧
      ∀ {y : StyleIndex}, Reachable y → (∀ o ∈ s, x.styleAt o = y.styleAt o) →
        x.query s = y.query s := by
  have own := depicts_query reachable.canonical.ascending upright
  refine ⟨own, fun runs depicts => depicts.unique own, fun {y} reachable' same => ?_⟩
  have other := depicts_query reachable'.canonical.ascending upright
  exact (own.congr same).unique other

/-- A hole, a run stored as unclassified behind it and a clipped run. The other index has a hole
over both, and answers the same. -/
theorem query_over_a_hole :
    ∃ x y : StyleIndex, Reachable x ∧ Reachable y ∧
      x.runs = [⟨⟨0, 3⟩, .styled 1⟩, ⟨⟨5, 7⟩, .unclassified⟩, ⟨⟨7, 9⟩, .styled 2⟩] ∧
      y.runs = [⟨⟨0, 3⟩, .styled 1⟩, ⟨⟨7, 12⟩, .styled 2⟩] ∧
      Depicts x.styleAt ⟨2, 8⟩
        [⟨⟨2, 3⟩, .styled 1⟩, ⟨⟨3, 7⟩, .unclassified⟩, ⟨⟨7, 8⟩, .styled 2⟩] ∧
      x.query ⟨2, 8⟩ = y.query ⟨2, 8⟩ := by
  have opened : Reachable ⟨[⟨⟨0, 3⟩, .styled 1⟩]⟩ :=
    Reachable.start.call (.replace ⟨0, 3⟩ [⟨⟨0, 3⟩, .styled 1⟩])
  have first : Reachable
      ⟨[⟨⟨0, 3⟩, .styled 1⟩, ⟨⟨5, 7⟩, .unclassified⟩, ⟨⟨7, 9⟩, .styled 2⟩]⟩ :=
    opened.call (.replace ⟨5, 9⟩ [⟨⟨5, 7⟩, .unclassified⟩, ⟨⟨7, 9⟩, .styled 2⟩])
  have second : Reachable ⟨[⟨⟨0, 3⟩, .styled 1⟩, ⟨⟨7, 12⟩, .styled 2⟩]⟩ :=
    opened.call (.replace ⟨7, 12⟩ [⟨⟨7, 12⟩, .styled 2⟩])
  obtain ⟨depicts, -, alike⟩ := query_depicts_reading first (s := ⟨2, 8⟩) (by decide)
  have same : ∀ o < 8, StyleIndex.styleAt
      ⟨[⟨⟨0, 3⟩, .styled 1⟩, ⟨⟨5, 7⟩, .unclassified⟩, ⟨⟨7, 9⟩, .styled 2⟩]⟩ o =
      StyleIndex.styleAt ⟨[⟨⟨0, 3⟩, .styled 1⟩, ⟨⟨7, 12⟩, .styled 2⟩]⟩ o := by decide
  exact ⟨_, _, first, second, rfl, rfl, depicts, alike second fun o inside => same o inside.2⟩

end StyleIndex

end Highlighting
