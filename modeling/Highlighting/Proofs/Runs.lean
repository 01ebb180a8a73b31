import Highlighting.Proofs.Index
import Mathlib.Data.List.Chain
import Mathlib.Data.List.Induction

/-!
Ascending runs, and maps that runs are written over.

Coalescing, which pushing runs one by one comes to, keeps runs that ascend ascending and leaves no
two neighbours that are one run. So runs that tile a span are, once coalesced, the coarsest tiling of
it.

A reader who holds a map from offsets to categories follows the document by writing runs over it
(`StyleRun.overwrite`) and by moving it through edits (`Splice.moveMap`). Written runs that tile a
span give its bytes the categories of the runs and leave all others.
-/

namespace Highlighting

namespace StyleRun

variable {runs : List StyleRun} {o : Nat}

/-- No run is empty, and each starts where the one before it stops or later. -/
structure Ascending (runs : List StyleRun) : Prop where
  nonempty : ∀ r ∈ runs, r.span.start < r.span.stop
  ordered : runs.Pairwise fun a b => a.span.stop ≤ b.span.start

theorem ascending_nil : Ascending [] :=
  ⟨nofun, List.Pairwise.nil⟩

/-- An offset is in one run only. -/
theorem Ascending.eq_of_mem (ascending : Ascending runs) {q r : StyleRun} (hq : q ∈ runs)
    (hr : r ∈ runs) (inQ : o ∈ q.span) (inR : o ∈ r.span) : q = r := by
  have symmetric : Std.Symm fun a b : StyleRun => o ∈ a.span → o ∉ b.span :=
    ⟨fun _ _ apart inB inA => apart inA inB⟩
  have apart : runs.Pairwise fun a b => o ∈ a.span → o ∉ b.span := by
    refine ascending.ordered.imp fun {a b} before inA inB => ?_
    simp only [Span.mem_iff] at inA inB
    omega
  by_contra other
  exact apart.forall hq hr other inQ inR

theorem Ascending.append {left right : List StyleRun} (first : Ascending left)
    (second : Ascending right)
    (before : ∀ a ∈ left, ∀ b ∈ right, a.span.stop ≤ b.span.start) : Ascending (left ++ right) := by
  refine ⟨fun r hr => ?_, List.pairwise_append.mpr ⟨first.ordered, second.ordered, before⟩⟩
  exact (List.mem_append.mp hr).elim (first.nonempty r) (second.nonempty r)

/-- Runs may be clipped and left out. -/
theorem Ascending.filterMap (ascending : Ascending runs) {f : StyleRun → Option StyleRun}
    (clips : ∀ r ∈ runs, ∀ q, f r = some q → r.span.start ≤ q.span.start ∧
      q.span.start < q.span.stop ∧ q.span.stop ≤ r.span.stop) : Ascending (runs.filterMap f) := by
  refine ⟨fun q hq => ?_, List.pairwise_filterMap.mpr (ascending.ordered.imp_of_mem ?_)⟩
  · obtain ⟨r, hr, clipped⟩ := List.mem_filterMap.mp hq
    exact (clips r hr q clipped).2.1
  · intro a b ha hb before q hq t ht
    have left := clips a ha q hq
    have right := clips b hb t ht
    omega

theorem ascending_of_checkTiling {cursor stop : Nat}
    (tiles : checkTiling cursor stop runs = .ok ()) : Ascending runs := by
  induction runs generalizing cursor with
  | nil => exact ascending_nil
  | cons r rest ih =>
      obtain ⟨starts, nonempty, tiles⟩ := StyleIndex.checkTiling_cons.mp tiles
      obtain ⟨-, inside⟩ := StyleIndex.bounds_of_checkTiling tiles
      have tail := ih tiles
      refine ⟨List.forall_mem_cons.mpr ⟨starts ▸ nonempty, tail.nonempty⟩, ?_⟩
      exact List.pairwise_cons.mpr ⟨fun q hq => (inside q hq).1, tail.ordered⟩

theorem categoryAt_of_mem (ascending : Ascending runs) {r : StyleRun} (hr : r ∈ runs)
    (inside : o ∈ r.span) : categoryAt runs o = r.category := by
  induction runs with
  | nil => cases hr
  | cons q rest ih =>
      rw [categoryAt]
      by_cases first : o ∈ q.span
      · rw [if_pos first, ascending.eq_of_mem List.mem_cons_self hr first inside]
      · have behind : r ∈ rest := by
          rcases List.mem_cons.mp hr with rfl | behind
          · exact absurd inside first
          · exact behind
        rw [if_neg first]
        refine ih ⟨?_, ascending.ordered.of_cons⟩ behind
        exact (List.forall_mem_cons.mp ascending.nonempty).2

/-! ### Coalescing -/

theorem le_start_of_mem_coalesce {limit : Nat} (bounded : ∀ r ∈ runs, limit ≤ r.span.start) :
    ∀ r ∈ coalesce runs, limit ≤ r.span.start := by
  induction runs with
  | nil => exact nofun
  | cons r rest ih =>
      obtain ⟨first, others⟩ := List.forall_mem_cons.mp bounded
      have tail := ih others
      change ∀ q ∈ cons r (coalesce rest), limit ≤ q.span.start
      unfold cons
      split
      · exact tail
      · split
        · exact List.forall_mem_cons.mpr ⟨first, nofun⟩
        · rename_i next more eq
          rw [eq] at tail
          split
          · exact List.forall_mem_cons.mpr ⟨first, (List.forall_mem_cons.mp tail).2⟩
          · exact List.forall_mem_cons.mpr ⟨first, tail⟩

theorem Ascending.coalesce (ascending : Ascending runs) : Ascending (coalesce runs) := by
  refine ⟨nonempty_of_mem_coalesce, ?_⟩
  obtain ⟨-, ordered⟩ := ascending
  induction runs with
  | nil => exact List.Pairwise.nil
  | cons r rest ih =>
      obtain ⟨before, others⟩ := List.pairwise_cons.mp ordered
      have tail := ih others
      have bounds := le_start_of_mem_coalesce before
      change (cons r (StyleRun.coalesce rest)).Pairwise _
      unfold cons
      split
      · exact tail
      · split
        · exact List.pairwise_singleton _ _
        · rename_i next more eq
          rw [eq] at tail bounds
          split
          · exact List.pairwise_cons.mpr (List.pairwise_cons.mp tail)
          · exact List.pairwise_cons.mpr ⟨bounds, tail⟩

theorem joins_eq_false_iff {a b : StyleRun} :
    a.joins b = false ↔ (a.category = b.category → a.span.stop ≠ b.span.start) := by
  simp [joins]

/-- No two neighbours of a coalesced list are one run. -/
theorem isChain_coalesce (runs : List StyleRun) :
    (coalesce runs).IsChain fun a b => a.joins b = false := by
  induction runs with
  | nil => exact List.IsChain.nil
  | cons r rest ih =>
      change (cons r (coalesce rest)).IsChain _
      unfold cons
      split
      · exact ih
      · split
        · exact List.IsChain.singleton _
        · rename_i next more eq
          rw [eq] at ih
          split
          · rename_i touch
            simp only [joins, Bool.and_eq_true, decide_eq_true_eq] at touch
            cases more with
            | nil => exact List.IsChain.singleton _
            | cons second others =>
                obtain ⟨apart, chain⟩ := List.isChain_cons_cons.mp ih
                refine List.isChain_cons_cons.mpr ⟨?_, chain⟩
                rw [joins_eq_false_iff] at apart ⊢
                exact fun same => apart (touch.1.symm.trans same)
          · rename_i apart
            exact List.isChain_cons_cons.mpr ⟨Bool.eq_false_iff.mpr apart, ih⟩

/-! ### Pushing -/

/-- A run that comes in front and one that comes behind may come in either order. -/
theorem push_cons_comm (q : StyleRun) (out : List StyleRun) (r : StyleRun) :
    push (cons q out) r = cons q (push out r) := by
  -- Both reach the same run only if there is at most one between them.
  cases out with
  | nil => grind [push, cons, joins, join]
  | cons first more =>
      cases more with
      | nil => grind [push, cons, joins, join]
      | cons second rest => grind [push, cons]

theorem coalesce_concat (runs : List StyleRun) (r : StyleRun) :
    coalesce (runs ++ [r]) = push (coalesce runs) r := by
  induction runs with
  | nil =>
      change cons r [] = push [] r
      rw [cons, push]
  | cons q rest ih =>
      change cons q (coalesce (rest ++ [r])) = push (cons q (coalesce rest)) r
      rw [ih, push_cons_comm]

/-- Pushing runs one by one coalesces them. -/
theorem foldl_push (runs : List StyleRun) : runs.foldl push [] = coalesce runs := by
  induction runs using List.reverseRecOn with
  | nil => rfl
  | append_singleton front r ih => rw [List.foldl_concat, ih, coalesce_concat]

/-! ### The coarsest tiling -/

/-- The coarsest tiling of a span by nonempty runs: each starts where the one before it stops, and
has another category. -/
structure Coarsest (s : Span) (runs : List StyleRun) : Prop where
  starts : runs.head?.map (·.span.start) = some s.start
  stops : runs.getLast?.map (·.span.stop) = some s.stop
  nonempty : ∀ r ∈ runs, r.span.start < r.span.stop
  chain : runs.IsChain fun a b => a.span.stop = b.span.start ∧ a.category ≠ b.category

theorem stop_of_checkTiling {cursor stop : Nat} (tiles : checkTiling cursor stop runs = .ok ())
    (nonempty : cursor < stop) : runs.getLast?.map (·.span.stop) = some stop := by
  induction runs generalizing cursor with
  | nil => exact absurd (StyleIndex.checkTiling_nil.mp tiles) (Nat.ne_of_lt nonempty)
  | cons r rest ih =>
      obtain ⟨-, -, tiles⟩ := StyleIndex.checkTiling_cons.mp tiles
      cases rest with
      | nil => exact congrArg some (StyleIndex.checkTiling_nil.mp tiles)
      | cons q more =>
          obtain ⟨starts, ahead, further⟩ := StyleIndex.checkTiling_cons.mp tiles
          rw [List.getLast?_cons_cons]
          exact ih tiles
            (Nat.lt_of_lt_of_le ahead (StyleIndex.bounds_of_checkTiling further).1)

/-- A tiling without two neighbours that are one run is the coarsest. -/
theorem coarsest_of_checkTiling {s : Span} (tiles : checkTiling s.start s.stop runs = .ok ())
    (nonempty : s.start < s.stop) (apart : runs.IsChain fun a b => a.joins b = false) :
    Coarsest s runs := by
  refine ⟨?_, stop_of_checkTiling tiles nonempty, (ascending_of_checkTiling tiles).nonempty, ?_⟩
  · cases runs with
    | nil => exact absurd (StyleIndex.checkTiling_nil.mp tiles) (Nat.ne_of_lt nonempty)
    | cons r rest => exact congrArg some (StyleIndex.checkTiling_cons.mp tiles).1
  · clear nonempty
    revert tiles
    generalize s.start = cursor
    induction runs generalizing cursor with
    | nil => exact fun _ => List.IsChain.nil
    | cons r rest ih =>
        intro tiles
        obtain ⟨-, -, tiles⟩ := StyleIndex.checkTiling_cons.mp tiles
        cases rest with
        | nil => exact List.IsChain.singleton _
        | cons q more =>
            obtain ⟨split, others⟩ := List.isChain_cons_cons.mp apart
            have touch := (StyleIndex.checkTiling_cons.mp tiles).1.symm
            refine List.isChain_cons_cons.mpr ⟨⟨touch, fun same => ?_⟩, ih others _ tiles⟩
            exact joins_eq_false_iff.mp split same touch

/-! ### Writing runs over a map -/

/-- A map from offsets to categories once runs were written over it, in their order. -/
def overwrite (m : Nat → Category) (runs : List StyleRun) : Nat → Category :=
  runs.foldl (fun m r o => if o ∈ r.span then r.category else m o) m

theorem overwrite_cons (m : Nat → Category) (r : StyleRun) (rest : List StyleRun) :
    overwrite m (r :: rest) = overwrite (fun o => if o ∈ r.span then r.category else m o) rest :=
  rfl

theorem overwrite_append (m : Nat → Category) (left right : List StyleRun) :
    overwrite m (left ++ right) = overwrite (overwrite m left) right :=
  List.foldl_append

/-- Runs that tile a span give each of its bytes the category of its run. -/
theorem overwrite_of_tiling {m : Nat → Category} {s : Span}
    (tiles : checkTiling s.start s.stop runs = .ok ()) :
    overwrite m runs o = if o ∈ s then categoryAt runs o else m o := by
  obtain ⟨start, stop⟩ := s
  dsimp only at tiles
  induction runs generalizing start m with
  | nil =>
      cases StyleIndex.checkTiling_nil.mp tiles
      rw [if_neg (fun inside => Nat.not_lt.mpr inside.1 inside.2)]
      rfl
  | cons r rest ih =>
      obtain ⟨starts, nonempty, tiles⟩ := StyleIndex.checkTiling_cons.mp tiles
      obtain ⟨ends, -⟩ := StyleIndex.bounds_of_checkTiling tiles
      rw [overwrite_cons, ih r.span.stop tiles, categoryAt]
      -- The runs behind `r` start where it stops, so they do not write over its bytes.
      by_cases own : o ∈ r.span
      · have notBehind : o ∉ (⟨r.span.stop, stop⟩ : Span) := fun behind =>
          Nat.not_lt.mpr behind.1 own.2
        have inside : o ∈ (⟨start, stop⟩ : Span) :=
          ⟨starts ▸ own.1, Nat.lt_of_lt_of_le own.2 ends⟩
        rw [if_neg notBehind, if_pos own, if_pos inside, if_pos own]
      · have same : o ∈ (⟨r.span.stop, stop⟩ : Span) ↔ o ∈ (⟨start, stop⟩ : Span) := by
          simp only [Span.mem_iff] at own ⊢
          omega
        rw [if_neg own, if_neg own]
        simp only [same]

end StyleRun

namespace Splice

/-- A map from offsets to categories once it was moved through a splice: nothing is known of the
new bytes. -/
def moveMap (e : Splice) (m : Nat → Category) (o : Nat) : Category :=
  match e.preimage? o with
  | none => .unclassified
  | some p => m p

end Splice

end Highlighting
