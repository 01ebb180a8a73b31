import Highlighting.Proofs.Index.Losses

/-!
The canonical form of stored runs.

`StyleRun.Holds` says which category a list of runs stores for an offset, and so tells a run that is
stored as unclassified from a hole. Canonical lists that hold the same are the same list
(`Canonical.eq_of_holds`), so two ways of changing an index lead to one index as soon as they store
the same for each offset.
-/

namespace Highlighting

namespace StyleRun

variable {runs left right : List StyleRun} {o : Nat} {c : Category}

/-- The runs ascend, and no two neighbours are one run. -/
structure Canonical (runs : List StyleRun) : Prop where
  ascending : Ascending runs
  apart : runs.IsChain fun a b => a.joins b = false

/-- A run of category `c` stands over the offset. -/
def Holds (runs : List StyleRun) (o : Nat) (c : Category) : Prop :=
  ∃ r ∈ runs, o ∈ r.span ∧ r.category = c

theorem not_holds_nil : ¬Holds [] o c :=
  nofun

theorem holds_cons {r : StyleRun} {rest : List StyleRun} :
    Holds (r :: rest) o c ↔ (o ∈ r.span ∧ r.category = c) ∨ Holds rest o c := by
  simp only [Holds, List.mem_cons, exists_eq_or_imp]

theorem holds_append : Holds (left ++ right) o c ↔ Holds left o c ∨ Holds right o c := by
  simp only [Holds, List.mem_append, or_and_right, exists_or]

/-- Over one offset stands one run. -/
theorem Ascending.eq_of_holds (ascending : Ascending runs) {d : Category} (first : Holds runs o c)
    (second : Holds runs o d) : c = d := by
  obtain ⟨q, hq, inQ, rfl⟩ := first
  obtain ⟨r, hr, inR, rfl⟩ := second
  rw [ascending.eq_of_mem hq hr inQ inR]

/-! ### Coalescing -/

theorem holds_consRun {r : StyleRun} {out : List StyleRun}
    (nonempty : ∀ t ∈ out, t.span.start < t.span.stop) :
    Holds (cons r out) o c ↔ Holds (r :: out) o c := by
  unfold cons
  split
  · rename_i empty
    rw [holds_cons, or_iff_right fun own => Span.isEmpty_iff.mp empty o own.1]
  · rename_i own
    simp only [Span.isEmpty, decide_eq_true_eq, Nat.not_le] at own
    split
    · rfl
    · rename_i next rest
      obtain ⟨first, -⟩ := List.forall_mem_cons.mp nonempty
      split
      · rename_i touch
        simp only [joins, Bool.and_eq_true, decide_eq_true_eq] at touch
        rw [holds_cons, holds_cons, holds_cons, mem_span_join own first touch.2, join, ← touch.1,
          ← or_assoc, or_and_right]
      · rfl

theorem holds_coalesce : Holds (coalesce runs) o c ↔ Holds runs o c := by
  induction runs with
  | nil => rfl
  | cons r rest ih =>
      change Holds (cons r (coalesce rest)) o c ↔ _
      rw [holds_consRun nonempty_of_mem_coalesce, holds_cons, holds_cons, ih]

/-! ### Uniqueness -/

theorem eq_of_ends {q r : StyleRun} (start : q.span.start = r.span.start)
    (stop : q.span.stop = r.span.stop) (category : q.category = r.category) : q = r := by
  obtain ⟨⟨qStart, qStop⟩, qCategory⟩ := q
  obtain ⟨⟨rStart, rStop⟩, rCategory⟩ := r
  cases start
  cases stop
  cases category
  rfl

theorem Canonical.tail {r : StyleRun} {rest : List StyleRun} (canonical : Canonical (r :: rest)) :
    Canonical rest where
  ascending := ⟨(List.forall_mem_cons.mp canonical.ascending.nonempty).2,
    canonical.ascending.ordered.of_cons⟩
  apart := canonical.apart.tail

/-- Behind the first run stands what the others hold. -/
theorem Canonical.holds_tail {r : StyleRun} {rest : List StyleRun}
    (canonical : Canonical (r :: rest)) :
    Holds rest o c ↔ Holds (r :: rest) o c ∧ r.span.stop ≤ o := by
  obtain ⟨behind, -⟩ := List.pairwise_cons.mp canonical.ascending.ordered
  rw [holds_cons]
  constructor
  · rintro ⟨q, hq, inside, same⟩
    exact ⟨Or.inr ⟨q, hq, inside, same⟩, Nat.le_trans (behind q hq) inside.1⟩
  · rintro ⟨⟨inside, -⟩ | rest, past⟩
    · exact absurd past (Nat.not_le.mpr inside.2)
    · exact rest

/-- The first run holds its own offsets, and none before them is held. -/
theorem Canonical.start_le {r : StyleRun} {rest : List StyleRun} (canonical : Canonical (r :: rest))
    (holds : Holds (r :: rest) o c) : r.span.start ≤ o := by
  obtain ⟨behind, -⟩ := List.pairwise_cons.mp canonical.ascending.ordered
  have nonempty := canonical.ascending.nonempty r List.mem_cons_self
  obtain ⟨q, hq, inside, -⟩ := holds
  rcases List.mem_cons.mp hq with rfl | hq
  · exact inside.1
  · have := behind q hq
    exact Nat.le_trans (Nat.le_of_lt nonempty) (Nat.le_trans this inside.1)

/-- The first run is as long as it can be. -/
theorem Canonical.not_holds_stop {r : StyleRun} {rest : List StyleRun}
    (canonical : Canonical (r :: rest)) : ¬Holds (r :: rest) r.span.stop r.category := by
  rw [holds_cons, or_iff_right fun own => Nat.lt_irrefl _ own.1.2]
  intro holds
  cases rest with
  | nil => exact not_holds_nil holds
  | cons next more =>
      have starts := canonical.tail.start_le holds
      have before := (List.pairwise_cons.mp canonical.ascending.ordered).1 next List.mem_cons_self
      have touch : r.span.stop = next.span.start := Nat.le_antisymm before starts
      have first : next.span.start ∈ next.span :=
        ⟨Nat.le_refl _, canonical.tail.ascending.nonempty next List.mem_cons_self⟩
      have own : Holds (next :: more) r.span.stop next.category :=
        ⟨next, List.mem_cons_self, touch ▸ first, rfl⟩
      have same := canonical.tail.ascending.eq_of_holds holds own
      have apart := (List.isChain_cons_cons.mp canonical.apart).1
      exact joins_eq_false_iff.mp apart same touch

/-- No longer span from its start on is held with its category. -/
theorem Canonical.stop_le {r : StyleRun} {rest : List StyleRun} {s : Span}
    (canonical : Canonical (r :: rest)) (start : s.start = r.span.start)
    (holds : ∀ o ∈ s, Holds (r :: rest) o r.category) : s.stop ≤ r.span.stop := by
  by_contra longer
  have nonempty := canonical.ascending.nonempty r List.mem_cons_self
  exact canonical.not_holds_stop (holds _ ⟨by omega, by omega⟩)

/-- A canonical list is given by what it holds. -/
theorem Canonical.eq_of_holds (first : Canonical left) (second : Canonical right)
    (same : ∀ o c, Holds left o c ↔ Holds right o c) : left = right := by
  have own : ∀ {r : StyleRun} {rest}, Canonical (r :: rest) →
      Holds (r :: rest) r.span.start r.category := fun {r rest} canonical =>
    ⟨r, List.mem_cons_self,
      ⟨Nat.le_refl _, canonical.ascending.nonempty r List.mem_cons_self⟩, rfl⟩
  induction left generalizing right with
  | nil =>
      cases right with
      | nil => rfl
      | cons q more => exact absurd ((same _ _).mpr (own second)) not_holds_nil
  | cons r rest ih =>
      cases right with
      | nil => exact absurd ((same _ _).mp (own first)) not_holds_nil
      | cons q more =>
          -- Each first run is the longest of its category from the least offset that is held.
          have start : r.span.start = q.span.start := Nat.le_antisymm
            (first.start_le ((same _ _).mpr (own second)))
            (second.start_le ((same _ _).mp (own first)))
          have category : r.category = q.category := by
            refine second.ascending.eq_of_holds ((same _ _).mp (own first)) ?_
            rw [start]
            exact own second
          have stop : r.span.stop = q.span.stop := by
            refine Nat.le_antisymm (second.stop_le start fun o inside => ?_)
              (first.stop_le start.symm fun o inside => ?_)
            · exact (same _ _).mp ⟨r, List.mem_cons_self, inside, category⟩
            · exact (same _ _).mpr ⟨q, List.mem_cons_self, inside, category.symm⟩
          have head : r = q := eq_of_ends start stop category
          subst head
          refine congrArg (r :: ·) (ih first.tail second.tail fun o c => ?_)
          rw [first.holds_tail, second.holds_tail, same o c]

end StyleRun

namespace StyleIndex

open StyleRun

variable {x y : StyleIndex} {o : Nat} {c : Category}

/-! ### Replacement -/

theorem holds_below {limit : Nat} {runs : List StyleRun} :
    Holds (below limit runs) o c ↔ Holds runs o c ∧ o < limit := by
  simp only [Holds, mem_below]
  constructor
  · rintro ⟨_, ⟨r, hr, starts, rfl⟩, inside, rfl⟩
    simp only [Span.mem_iff] at inside
    exact ⟨⟨r, hr, ⟨by omega, by omega⟩, rfl⟩, by omega⟩
  · rintro ⟨⟨r, hr, inside, rfl⟩, before⟩
    simp only [Span.mem_iff] at inside
    refine ⟨_, ⟨r, hr, by omega, rfl⟩, ?_, rfl⟩
    simp only [Span.mem_iff]
    omega

theorem holds_above {limit : Nat} {runs : List StyleRun} :
    Holds (above limit runs) o c ↔ Holds runs o c ∧ limit ≤ o := by
  simp only [Holds, mem_above]
  constructor
  · rintro ⟨_, ⟨r, hr, stops, rfl⟩, inside, rfl⟩
    simp only [Span.mem_iff] at inside
    exact ⟨⟨r, hr, ⟨by omega, by omega⟩, rfl⟩, by omega⟩
  · rintro ⟨⟨r, hr, inside, rfl⟩, behind⟩
    simp only [Span.mem_iff] at inside
    refine ⟨_, ⟨r, hr, by omega, rfl⟩, ?_, rfl⟩
    simp only [Span.mem_iff]
    omega

/-- A tiling holds nothing outside its span. -/
theorem mem_of_holds {s : Span} {pieces : List StyleRun}
    (tiles : checkTiling s.start s.stop pieces = .ok ()) (holds : Holds pieces o c) : o ∈ s := by
  obtain ⟨r, hr, inside, -⟩ := holds
  have bounds := (bounds_of_checkTiling tiles).2 r hr
  exact ⟨Nat.le_trans bounds.1 inside.1, Nat.lt_of_lt_of_le inside.2 bounds.2⟩

/-- A replacement stores the pieces over its span and leaves all other offsets alone. -/
theorem holds_of_replace {s : Span} {pieces : List StyleRun} (ok : x.replace s pieces = .ok y) :
    Holds y.runs o c ↔ Holds pieces o c ∨ (Holds x.runs o c ∧ o ∉ s) := by
  have tiles := tiles_of_replace ok
  rw [replace_of_tiling tiles, Except.ok.injEq] at ok
  subst ok
  split
  · rename_i empty
    have outside := Span.isEmpty_iff.mp empty o
    have none : ¬Holds pieces o c := fun holds => outside (mem_of_holds tiles holds)
    simp only [none, outside, not_false_eq_true, and_true, false_or]
  · rw [holds_coalesce, holds_append, holds_append, holds_below, holds_above]
    simp only [Span.mem_iff, not_and_or, Nat.not_le, Nat.not_lt, and_or_left]
    rw [or_assoc, or_left_comm]

theorem canonical_of_replace {s : Span} {pieces : List StyleRun} (canonical : Canonical x.runs)
    (ok : x.replace s pieces = .ok y) : Canonical y.runs := by
  refine ⟨ascending_of_replace canonical.ascending ok, ?_⟩
  rw [replace_of_tiling (tiles_of_replace ok), Except.ok.injEq] at ok
  subst ok
  split
  · exact canonical.apart
  · exact isChain_coalesce _

theorem canonical_empty : Canonical empty.runs :=
  ⟨ascending_nil, List.IsChain.nil⟩

theorem canonical_apply (canonical : Canonical x.runs) (e : Splice) : Canonical (x.apply e).runs :=
  ⟨ascending_apply canonical.ascending, isChain_coalesce _⟩

end StyleIndex

/-! ### Along every run -/

/-- The calls that change an index. -/
inductive IndexCall where
  | replace (s : Span) (pieces : List StyleRun)
  | apply (e : Splice)
  | shift (offset : Nat) (delta : Int)
  | clear

namespace StyleIndex

open StyleRun

/-- The index after a call. A replacement that is refused leaves it alone. -/
def call (x : StyleIndex) : IndexCall → StyleIndex
  | .replace s pieces =>
    match x.replace s pieces with
    | .ok y => y
    | .error _ => x
  | .apply e => x.apply e
  | .shift offset delta => x.apply (shiftSplice offset delta)
  | .clear => empty

/-- The indices that calls lead to. -/
inductive Reachable : StyleIndex → Prop where
  | start : Reachable empty
  | call {x : StyleIndex} (c : IndexCall) : Reachable x → Reachable (x.call c)

theorem canonical_call {x : StyleIndex} (canonical : Canonical x.runs) (c : IndexCall) :
    Canonical (x.call c).runs := by
  cases c with
  | replace s pieces =>
      simp only [call]
      split
      · rename_i y ok
        exact canonical_of_replace canonical ok
      · exact canonical
  | apply e => exact canonical_apply canonical e
  | shift offset delta => exact canonical_apply canonical (shiftSplice offset delta)
  | clear => exact canonical_empty

/-- Every index that calls lead to is canonical. -/
theorem Reachable.canonical {x : StyleIndex} (reachable : Reachable x) : Canonical x.runs := by
  induction reachable with
  | start => exact canonical_empty
  | call c _ ih => exact canonical_call ih c

end StyleIndex

end Highlighting
