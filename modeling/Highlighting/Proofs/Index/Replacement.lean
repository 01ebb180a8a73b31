import Highlighting.Proofs.Index.Canonical

/-!
Replacement.

A replacement is checked before anything is changed. The check goes along the pieces with a cursor
and reports the first fault; what it accepts are the tilings of the span (`StyleRun.Tiles`), which
says nothing of a cursor. An empty span is tiled by no pieces at all, and an inverted one by none
either way.

What is stored afterwards is the pieces over the span and the old runs around it. A run that is cut
on both sides leaves two remnants, and pieces and remnants of one category that touch are one run
again, whichever of the seams they meet at.
-/

namespace Highlighting

namespace StyleRun

/-- The pieces follow one another from the start of the span to its stop, and none is empty. -/
structure Tiles (s : Span) (pieces : List StyleRun) : Prop where
  nonempty : ∀ r ∈ pieces, r.span.start < r.span.stop
  starts : ∀ r ∈ pieces.head?, r.span.start = s.start
  follow : pieces.IsChain fun a b => b.span.start = a.span.stop
  stops : ∀ r ∈ pieces.getLast?, r.span.stop = s.stop
  none : pieces = [] → s.start = s.stop

variable {s : Span} {pieces : List StyleRun} {o : Nat}

theorem tiles_nil : Tiles s [] ↔ s.start = s.stop := by
  constructor
  · intro tiles
    exact tiles.none rfl
  · intro empty
    exact ⟨nofun, nofun, List.IsChain.nil, nofun, fun _ => empty⟩

/-- The first piece starts the span, and the others tile what is left of it. -/
theorem tiles_cons {r : StyleRun} {rest : List StyleRun} :
    Tiles s (r :: rest) ↔ r.span.start = s.start ∧ r.span.start < r.span.stop ∧
      Tiles ⟨r.span.stop, s.stop⟩ rest := by
  constructor
  · rintro ⟨nonempty, starts, follow, stops, -⟩
    obtain ⟨own, others⟩ := List.forall_mem_cons.mp nonempty
    have first : r.span.start = s.start := starts r rfl
    cases rest with
    | nil =>
        have last : r.span.stop = s.stop := stops r rfl
        exact ⟨first, own, tiles_nil.mpr last⟩
    | cons q more =>
        obtain ⟨touch, chain⟩ := List.isChain_cons_cons.mp follow
        rw [List.getLast?_cons_cons] at stops
        refine ⟨first, own, others, ?_, chain, stops, nofun⟩
        simpa using touch
  · rintro ⟨first, own, tiles⟩
    have nonempty : ∀ q ∈ r :: rest, q.span.start < q.span.stop :=
      List.forall_mem_cons.mpr ⟨own, tiles.nonempty⟩
    cases rest with
    | nil =>
        have last := tiles.none rfl
        exact ⟨nonempty, by simpa using first, List.IsChain.singleton _, by simpa using last, nofun⟩
    | cons q more =>
        have touch : q.span.start = r.span.stop := tiles.starts q rfl
        refine ⟨nonempty, by simpa using first, List.isChain_cons_cons.mpr ⟨touch, tiles.follow⟩,
          ?_, nofun⟩
        rw [List.getLast?_cons_cons]
        exact tiles.stops

/-- The check accepts the tilings. -/
theorem checkTiling_eq_ok_iff : checkTiling s.start s.stop pieces = .ok () ↔ Tiles s pieces := by
  induction pieces generalizing s with
  | nil => rw [StyleIndex.checkTiling_nil, tiles_nil]
  | cons r rest ih =>
      have tail := @ih ⟨r.span.stop, s.stop⟩
      rw [StyleIndex.checkTiling_cons, tiles_cons, ← tail]
      constructor
      · rintro ⟨first, own, tiles⟩
        exact ⟨first, first ▸ own, tiles⟩
      · rintro ⟨first, own, tiles⟩
        exact ⟨first, first ▸ own, tiles⟩

theorem Tiles.start_le_stop (tiles : Tiles s pieces) : s.start ≤ s.stop :=
  (StyleIndex.bounds_of_checkTiling (checkTiling_eq_ok_iff.mpr tiles)).1

/-- An empty span is tiled by no pieces. -/
theorem tiles_iff_of_empty (empty : s.start = s.stop) : Tiles s pieces ↔ pieces = [] := by
  constructor
  · intro tiles
    cases pieces with
    | nil => rfl
    | cons r rest =>
        obtain ⟨first, own, tiles⟩ := tiles_cons.mp tiles
        have := tiles.start_le_stop
        dsimp only at this
        omega
  · rintro rfl
    exact tiles_nil.mpr empty

/-- Every offset of the span lies in a piece. -/
theorem Tiles.exists_mem (tiles : Tiles s pieces) (inside : o ∈ s) : ∃ r ∈ pieces, o ∈ r.span := by
  induction pieces generalizing s with
  | nil =>
      have empty := tiles_nil.mp tiles
      simp only [Span.mem_iff] at inside
      omega
  | cons r rest ih =>
      obtain ⟨first, -, tiles⟩ := tiles_cons.mp tiles
      by_cases own : o ∈ r.span
      · exact ⟨r, List.mem_cons_self, own⟩
      · have behind : o ∈ (⟨r.span.stop, s.stop⟩ : Span) := by
          simp only [Span.mem_iff] at inside own ⊢
          omega
        obtain ⟨q, hq, mem⟩ := ih tiles behind
        exact ⟨q, List.mem_cons_of_mem r hq, mem⟩

theorem exists_holds_iff {runs : List StyleRun} :
    (∃ c, Holds runs o c) ↔ ∃ r ∈ runs, o ∈ r.span := by
  constructor
  · rintro ⟨c, r, hr, inside, -⟩
    exact ⟨r, hr, inside⟩
  · rintro ⟨r, hr, inside⟩
    exact ⟨r.category, r, hr, inside, rfl⟩

end StyleRun

namespace StyleIndex

open StyleRun

variable {x y : StyleIndex} {s : Span} {pieces : List StyleRun} {o : Nat} {c : Category}

theorem exists_replace_iff : (∃ y, x.replace s pieces = .ok y) ↔ Tiles s pieces := by
  rw [← checkTiling_eq_ok_iff]
  constructor
  · rintro ⟨y, ok⟩
    exact tiles_of_replace ok
  · intro tiles
    exact ⟨_, replace_of_tiling tiles⟩

theorem call_replace_of_error {fault : TilingError} (refused : x.replace s pieces = .error fault) :
    x.call (.replace s pieces) = x := by
  simp only [call, refused]

theorem styleAt_of_holds (ascending : Ascending x.runs) (holds : Holds x.runs o c) :
    x.styleAt o = c := by
  obtain ⟨r, hr, inside, rfl⟩ := holds
  rw [styleAt_eq_categoryAt, categoryAt_of_mem ascending hr inside]

/-- Outside its span a replacement leaves all that is stored. -/
theorem holds_of_replace_of_not_mem (ok : x.replace s pieces = .ok y) (outside : o ∉ s) :
    Holds y.runs o c ↔ Holds x.runs o c := by
  have foreign : ¬Holds pieces o c := fun holds =>
    outside (mem_of_holds (tiles_of_replace ok) holds)
  simp only [holds_of_replace ok, foreign, outside, not_false_eq_true, and_true, false_or]

/-- A replacement is accepted just if its pieces tile the span; then they are read over the span,
and elsewhere the index reads and stores what it did before. A replacement that is refused leaves
the index alone. -/
theorem replaces_what_is_tiled (reachable : Reachable x) (s : Span) (pieces : List StyleRun) :
    ((∃ y, x.replace s pieces = .ok y) ↔ Tiles s pieces) ∧
      (s.start = s.stop → (Tiles s pieces ↔ pieces = [])) ∧
      (s.stop < s.start → ¬Tiles s pieces) ∧
      (∀ fault, x.replace s pieces = .error fault → x.call (.replace s pieces) = x) ∧
      ∀ y, x.replace s pieces = .ok y →
        x.call (.replace s pieces) = y ∧
        (∀ o ∈ s, ∃ r ∈ pieces, o ∈ r.span) ∧
        (∀ r ∈ pieces, ∀ o ∈ r.span, o ∈ s ∧ y.styleAt o = r.category) ∧
        (∀ o, o ∉ s → y.styleAt o = x.styleAt o ∧
          ((∃ r ∈ y.runs, o ∈ r.span) ↔ ∃ r ∈ x.runs, o ∈ r.span)) ∧
        Canonical y.runs := by
  have canonical := reachable.canonical
  refine ⟨exists_replace_iff, tiles_iff_of_empty, fun inverted tiles => ?_,
    fun fault refused => call_replace_of_error refused, fun y ok => ?_⟩
  · exact Nat.not_le.mpr inverted tiles.start_le_stop
  · have tiles := tiles_of_replace ok
    have stored := canonical_of_replace canonical ok
    refine ⟨by simp only [call, ok], ?_, ?_, ?_, stored⟩
    · intro o inside
      exact (checkTiling_eq_ok_iff.mp tiles).exists_mem inside
    · intro r hr o inside
      have piece : Holds pieces o r.category := ⟨r, hr, inside, rfl⟩
      exact ⟨mem_of_holds tiles piece,
        styleAt_of_holds stored.ascending ((holds_of_replace ok).mpr (Or.inl piece))⟩
    · intro o outside
      constructor
      · rw [styleAt_of_replace tiles ok, if_neg outside]
      · rw [← exists_holds_iff, ← exists_holds_iff]
        simp only [holds_of_replace_of_not_mem ok outside]

/-- One run is cut on both sides. The pieces take in the remnant before them and the run behind
the other one, and the hole at 9 stays a hole. -/
theorem replacement_inside_a_run :
    ∃ x y : StyleIndex, Reachable x ∧
      x.runs = [⟨⟨0, 6⟩, .styled 1⟩, ⟨⟨6, 8⟩, .styled 2⟩] ∧
      x.replace ⟨2, 6⟩ [⟨⟨2, 3⟩, .styled 1⟩, ⟨⟨3, 5⟩, .unclassified⟩, ⟨⟨5, 6⟩, .styled 2⟩] = .ok y ∧
      y.runs = [⟨⟨0, 3⟩, .styled 1⟩, ⟨⟨3, 5⟩, .unclassified⟩, ⟨⟨5, 8⟩, .styled 2⟩] ∧
      y.styleAt 4 = .unclassified ∧ y.styleAt 7 = x.styleAt 7 ∧
      ((∃ r ∈ y.runs, 9 ∈ r.span) ↔ ∃ r ∈ x.runs, 9 ∈ r.span) ∧
      Canonical y.runs := by
  have reachable : Reachable ⟨[⟨⟨0, 6⟩, .styled 1⟩, ⟨⟨6, 8⟩, .styled 2⟩]⟩ :=
    Reachable.start.call (.replace ⟨0, 8⟩ [⟨⟨0, 6⟩, .styled 1⟩, ⟨⟨6, 8⟩, .styled 2⟩])
  obtain ⟨-, -, -, -, replaced⟩ := replaces_what_is_tiled reachable ⟨2, 6⟩
    [⟨⟨2, 3⟩, .styled 1⟩, ⟨⟨3, 5⟩, .unclassified⟩, ⟨⟨5, 6⟩, .styled 2⟩]
  obtain ⟨-, -, inside, outside, canonical⟩ := replaced _ rfl
  exact ⟨_, _, reachable, rfl, rfl, rfl, (inside ⟨⟨3, 5⟩, .unclassified⟩ (by simp) 4 (by decide)).2,
    (outside 7 (by decide)).1, (outside 9 (by decide)).2, canonical⟩

end StyleIndex

end Highlighting
