import Highlighting.Proofs.Index.Canonical

/-!
The normal form of pieces.

Pieces that come in the order of the text may have gaps and empty pieces between them, and may follow
one another with one category (`StyleRun.InOrder`). Pushed one by one they become canonical runs that
hold what the pieces held. Each of these runs is a stretch of one category that cannot be made longer
on either side (`StyleRun.Stretch`), and each such stretch is among them. So nothing is left of how
the pieces were cut, and canonical runs that are pushed again stay as they are.
-/

namespace Highlighting

namespace StyleRun

variable {runs others : List StyleRun} {r : StyleRun} {o : Nat} {c : Category}

/-- A piece with bytes starts where those before it stop, or later. Empty pieces stand anywhere. -/
def InOrder (runs : List StyleRun) : Prop :=
  runs.Pairwise fun a b =>
    a.span.start < a.span.stop → b.span.start < b.span.stop → a.span.stop ≤ b.span.start

instance : Decidable (InOrder runs) :=
  inferInstanceAs (Decidable (runs.Pairwise _))

/-- The category of `r` is held all along its span, and neither right before it nor right behind. -/
structure Stretch (held : Nat → Category → Prop) (r : StyleRun) : Prop where
  nonempty : r.span.start < r.span.stop
  along : ∀ o ∈ r.span, held o r.category
  before : ∀ o, o + 1 = r.span.start → ¬held o r.category
  behind : ¬held r.span.stop r.category

/-! ### Canonical runs are stretches -/

/-- Each run is as long as it can be. -/
theorem Canonical.not_holds_stop_of_mem (canonical : Canonical runs) (hr : r ∈ runs) :
    ¬Holds runs r.span.stop r.category := by
  induction runs with
  | nil => cases hr
  | cons first rest ih =>
      rcases List.mem_cons.mp hr with rfl | later
      · exact canonical.not_holds_stop
      · intro holds
        have ordered := (List.pairwise_cons.mp canonical.ascending.ordered).1 r later
        have nonempty := canonical.ascending.nonempty r hr
        exact ih canonical.tail later (canonical.holds_tail.mpr ⟨holds, by omega⟩)

theorem Canonical.ne_of_touch (canonical : Canonical runs) {a b : StyleRun} (ha : a ∈ runs)
    (hb : b ∈ runs) (touch : a.span.stop = b.span.start) : a.category ≠ b.category := by
  intro same
  apply canonical.not_holds_stop_of_mem ha
  exact ⟨b, hb, ⟨Nat.le_of_eq touch.symm, touch ▸ canonical.ascending.nonempty b hb⟩, same.symm⟩

theorem Canonical.stretch (canonical : Canonical runs) (hr : r ∈ runs) : Stretch (Holds runs) r where
  nonempty := canonical.ascending.nonempty r hr
  along := fun o inside => ⟨r, hr, inside, rfl⟩
  behind := canonical.not_holds_stop_of_mem hr
  before := by
    rintro o next ⟨q, hq, inside, same⟩
    have nonempty := canonical.ascending.nonempty r hr
    rw [Span.mem_iff] at inside
    rcases Nat.lt_or_ge r.span.start q.span.stop with within | upTo
    · -- The run before reaches into this one, so it is this one, which starts behind the offset.
      have here : r.span.start ∈ q.span := ⟨by omega, within⟩
      have own : r.span.start ∈ r.span := ⟨Nat.le_refl _, nonempty⟩
      rw [canonical.ascending.eq_of_mem hq hr here own] at inside
      omega
    · exact canonical.ne_of_touch hq hr (by omega) same

theorem Canonical.mem_of_stretch (canonical : Canonical runs) (stretch : Stretch (Holds runs) r) :
    r ∈ runs := by
  obtain ⟨q, hq, inside, same⟩ := stretch.along r.span.start ⟨Nat.le_refl _, stretch.nonempty⟩
  rw [Span.mem_iff] at inside
  have nonempty := stretch.nonempty
  have start : q.span.start = r.span.start := by
    by_contra other
    refine stretch.before (r.span.start - 1) (by omega) ⟨q, hq, ?_, same⟩
    rw [Span.mem_iff]
    omega
  have stop : q.span.stop = r.span.stop := by
    rcases Nat.lt_trichotomy q.span.stop r.span.stop with shorter | equal | longer
    · refine absurd ?_ (canonical.not_holds_stop_of_mem hq)
      rw [same]
      exact stretch.along _ ⟨by omega, shorter⟩
    · exact equal
    · refine absurd ⟨q, hq, ?_, same⟩ stretch.behind
      exact ⟨by omega, longer⟩
  exact eq_of_ends start stop same ▸ hq

/-- Canonical runs are the stretches of what they hold. -/
theorem Canonical.mem_iff_stretch (canonical : Canonical runs) :
    r ∈ runs ↔ Stretch (Holds runs) r :=
  ⟨canonical.stretch, canonical.mem_of_stretch⟩

/-! ### Coalescing pieces -/

theorem coalesce_filter_nonempty (runs : List StyleRun) :
    coalesce (runs.filter fun r => r.span.start < r.span.stop) = coalesce runs := by
  induction runs with
  | nil => rfl
  | cons r rest ih =>
      by_cases nonempty : r.span.start < r.span.stop
      · rw [List.filter_cons_of_pos (by simpa using nonempty)]
        exact congrArg (cons r) ih
      · have empty : r.span.isEmpty = true := by simpa [Span.isEmpty] using nonempty
        rw [List.filter_cons_of_neg (by simpa using nonempty), ih]
        change coalesce rest = cons r (coalesce rest)
        simp [cons.eq_def, empty]

theorem InOrder.canonical_coalesce (inOrder : InOrder runs) : Canonical (coalesce runs) := by
  have ascending : Ascending (runs.filter fun r => r.span.start < r.span.stop) := by
    refine ⟨by simp, List.pairwise_filter.mpr (inOrder.imp ?_)⟩
    simp
  have coalesced := ascending.coalesce
  rw [coalesce_filter_nonempty] at coalesced
  exact ⟨coalesced, isChain_coalesce runs⟩

theorem Canonical.coalesce_eq (canonical : Canonical runs) : coalesce runs = runs := by
  have coalesced : Canonical (coalesce runs) :=
    ⟨canonical.ascending.coalesce, isChain_coalesce runs⟩
  exact coalesced.eq_of_holds canonical fun o c => holds_coalesce

/-- Pieces that come in order, pushed one by one, become ascending runs of which no two that touch
have one category. The runs hold what the pieces held, and are the longest stretches of it. Pieces
that hold the same become the same runs, and pushing the runs again changes nothing. -/
theorem pushing_leaves_longest_runs (inOrder : InOrder runs) :
    let pushed := runs.foldl push []
    Ascending pushed ∧
      (∀ a ∈ pushed, ∀ b ∈ pushed, a.span.stop = b.span.start → a.category ≠ b.category) ∧
      (∀ o c, Holds pushed o c ↔ Holds runs o c) ∧
      (∀ r, r ∈ pushed ↔ Stretch (Holds runs) r) ∧
      (∀ {others}, InOrder others → (∀ o c, Holds others o c ↔ Holds runs o c) →
        others.foldl push [] = pushed) ∧
      pushed.foldl push [] = pushed := by
  simp only [foldl_push]
  have canonical := inOrder.canonical_coalesce
  have held : Holds (coalesce runs) = Holds runs := by
    funext o c
    exact propext holds_coalesce
  refine ⟨canonical.ascending, fun a ha b hb => canonical.ne_of_touch ha hb,
    fun o c => holds_coalesce, fun r => ?_, fun {others} inOrder' same => ?_,
    canonical.coalesce_eq⟩
  · rw [canonical.mem_iff_stretch, held]
  · -- The pieces may be cut in any way: canonical runs depend on what they hold alone.
    apply inOrder'.canonical_coalesce.eq_of_holds canonical
    intro o c
    rw [holds_coalesce, holds_coalesce, same]

/-- Three runs with a hole before the last. They come in six pieces, one of them empty and one
inverted, and again in five. -/
theorem pushing_three_runs_in_pieces :
    let runs : List StyleRun := [⟨⟨0, 3⟩, .styled 1⟩, ⟨⟨9, 9⟩, .styled 2⟩, ⟨⟨3, 5⟩, .styled 1⟩,
      ⟨⟨5, 7⟩, .unclassified⟩, ⟨⟨6, 2⟩, .styled 1⟩, ⟨⟨8, 9⟩, .styled 1⟩]
    let others : List StyleRun := [⟨⟨0, 1⟩, .styled 1⟩, ⟨⟨1, 5⟩, .styled 1⟩,
      ⟨⟨5, 6⟩, .unclassified⟩, ⟨⟨6, 7⟩, .unclassified⟩, ⟨⟨8, 9⟩, .styled 1⟩]
    let pushed := runs.foldl push []
    InOrder runs ∧ InOrder others ∧ (∀ o c, Holds others o c ↔ Holds runs o c) ∧
      pushed = [⟨⟨0, 5⟩, .styled 1⟩, ⟨⟨5, 7⟩, .unclassified⟩, ⟨⟨8, 9⟩, .styled 1⟩] ∧
      (∀ r, r ∈ pushed ↔ Stretch (Holds runs) r) ∧
      others.foldl push [] = pushed ∧ pushed.foldl push [] = pushed := by
  intro runs others pushed
  have inOrder : InOrder runs := by decide
  have inOrder' : InOrder others := by decide
  have same : ∀ o c, Holds others o c ↔ Holds runs o c := by
    intro o c
    simp only [runs, others, holds_cons, Span.mem_iff, not_holds_nil]
    grind
  obtain ⟨-, -, -, stretches, unique, again⟩ := pushing_leaves_longest_runs inOrder
  exact ⟨inOrder, inOrder', same, by decide, stretches, unique inOrder' same, again⟩

end StyleRun

end Highlighting
