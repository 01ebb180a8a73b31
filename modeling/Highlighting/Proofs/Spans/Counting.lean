import Highlighting.Proofs.Spans
import Mathlib

/-!
How many offsets a set of spans holds.

Spans that share no offset hold as many offsets together as their lengths add up to. The total of a
span set in normal form is therefore the number of its offsets, and a set that holds no more offsets
than another has no larger total.
-/

namespace Highlighting

namespace Span

variable {ss : List Span} {o : Nat}

/-- The offsets of some spans. -/
def cover (ss : List Span) : Finset Nat :=
  ss.foldr (fun s rest => Finset.Ico s.start s.stop ∪ rest) ∅

theorem mem_cover : o ∈ cover ss ↔ ∃ s ∈ ss, o ∈ s := by
  induction ss with
  | nil => simp [cover]
  | cons s rest ih =>
      change o ∈ Finset.Ico s.start s.stop ∪ cover rest ↔ _
      simp only [Finset.mem_union, Finset.mem_Ico, ih, List.mem_cons, exists_eq_or_imp, mem_iff]

theorem cover_append (ss ts : List Span) : cover (ss ++ ts) = cover ss ∪ cover ts := by
  ext o
  rw [Finset.mem_union, mem_cover, mem_cover, mem_cover, ← exists_or]
  simp only [List.mem_append, or_and_right]

theorem card_cover (disjoint : ss.Pairwise fun a b => ∀ o ∈ a, o ∉ b) :
    (cover ss).card = (ss.map length).sum := by
  induction ss with
  | nil => rfl
  | cons s rest ih =>
      obtain ⟨apart, others⟩ := List.pairwise_cons.mp disjoint
      have free : Disjoint (Finset.Ico s.start s.stop) (cover rest) := by
        refine Finset.disjoint_left.mpr fun o own mem => ?_
        obtain ⟨r, hr, inside⟩ := mem_cover.mp mem
        exact apart r hr o (Finset.mem_Ico.mp own) inside
      change (Finset.Ico s.start s.stop ∪ cover rest).card = _
      rw [Finset.card_union_of_disjoint free, Nat.card_Ico, ih others, List.map_cons,
        List.sum_cons, length]

/-- Spans that are not empty hold at least one offset each. -/
theorem length_le_sum (nonempty : ∀ s ∈ ss, s.start < s.stop) :
    ss.length ≤ (ss.map length).sum := by
  induction ss with
  | nil => exact Nat.le_refl _
  | cons s rest ih =>
      obtain ⟨own, others⟩ := List.forall_mem_cons.mp nonempty
      have := ih others
      simp only [List.length_cons, List.map_cons, List.sum_cons, length]
      omega

end Span

namespace SpanSet

variable {d e : SpanSet}

theorem total_eq_sum (d : SpanSet) : d.total = (d.spans.map Span.length).sum := by
  unfold total
  induction d.spans with
  | nil => rfl
  | cons s rest ih => rw [List.foldr_cons, ih, List.map_cons, List.sum_cons]

/-- The total is the number of offsets. -/
theorem Normal.total_eq_card (normal : d.Normal) : d.total = (Span.cover d.spans).card := by
  rw [total_eq_sum, Span.card_cover normal.disjoint]

theorem Normal.total_le (normal : d.Normal) (normal' : e.Normal) (sub : ∀ o ∈ d, o ∈ e) :
    d.total ≤ e.total := by
  rw [normal.total_eq_card, normal'.total_eq_card]
  refine Finset.card_le_card fun o mem => ?_
  exact Span.mem_cover.mpr (sub o (Span.mem_cover.mp mem))

theorem Normal.total_eq_zero_iff (normal : d.Normal) : d.total = 0 ↔ d.isEmpty = true := by
  have many := Span.length_le_sum normal.nonempty
  rw [total_eq_sum, isEmpty, List.isEmpty_iff]
  constructor
  · intro none
    rw [none] at many
    exact List.eq_nil_of_length_eq_zero (Nat.le_zero.mp many)
  · intro none
    rw [none]
    rfl

end SpanSet

end Highlighting
