import Highlighting.Proofs.Runs
import Mathlib.Data.Set.Basic

/-!
What an index forgets.

An edit drops every run that it cuts into, and answers the region whose categories went with them.
Beside every run of calls on an index go two records that forget nothing: the category that each
byte was last given, moved through every edit, and the bytes that were answered as lost and not
given a category since.

The index never contradicts the first record. Where it differs from it, it reads nothing, and the
byte stands in the second one. So a caller that replaces every lost region again has an exact index.
-/

namespace Highlighting

namespace StyleIndex

open StyleRun

/-- The runs of calls on an index, each with the category that every byte was given last and with
the bytes that were answered as lost and not given one since. -/
inductive LossRun : StyleIndex → (Nat → Category) → Set Nat → Prop where
  | start : LossRun .empty (fun _ => .unclassified) ∅
  | replace {x y : StyleIndex} {given : Nat → Category} {lost : Set Nat} {s : Span}
      {pieces : List StyleRun} :
      LossRun x given lost → x.replace s pieces = .ok y →
      LossRun y (overwrite given pieces) {o | o ∈ lost ∧ o ∉ s}
  | apply {x : StyleIndex} {given : Nat → Category} {lost : Set Nat} {e : Splice} :
      LossRun x given lost → e.old.start ≤ e.old.stop →
      LossRun (x.apply e) (e.moveMap given)
        {o | (∃ p ∈ lost, e.preimage? o = some p) ∨ ∃ region, x.lost e = some region ∧ o ∈ region}
  | clear {x : StyleIndex} {given : Nat → Category} {lost : Set Nat} :
      LossRun x given lost → LossRun .empty (fun _ => .unclassified) ∅

variable {x y : StyleIndex} {o p : Nat}

/-! ### The form of a stored index -/

theorem tiles_of_replace {s : Span} {pieces : List StyleRun} (ok : x.replace s pieces = .ok y) :
    checkTiling s.start s.stop pieces = .ok () := by
  unfold StyleIndex.replace at ok
  split at ok
  · cases ok
  · assumption

theorem ascending_below {runs : List StyleRun} (ascending : Ascending runs) (limit : Nat) :
    Ascending (below limit runs) := by
  refine ascending.filterMap fun r hr q clipped => ?_
  have nonempty := ascending.nonempty r hr
  split at clipped
  · cases clipped
    dsimp only
    omega
  · cases clipped

theorem ascending_above {runs : List StyleRun} (ascending : Ascending runs) (limit : Nat) :
    Ascending (above limit runs) := by
  refine ascending.filterMap fun r hr q clipped => ?_
  have nonempty := ascending.nonempty r hr
  split at clipped
  · cases clipped
    dsimp only
    omega
  · cases clipped

theorem ascending_of_replace {s : Span} {pieces : List StyleRun} (ascending : Ascending x.runs)
    (ok : x.replace s pieces = .ok y) : Ascending y.runs := by
  have tiles := tiles_of_replace ok
  obtain ⟨upright, inside⟩ := bounds_of_checkTiling tiles
  rw [replace_of_tiling tiles, Except.ok.injEq] at ok
  subst ok
  split
  · exact ascending
  · have low : Ascending (below s.start x.runs ++ pieces) := by
      refine (ascending_below ascending _).append (ascending_of_checkTiling tiles) fun a ha b hb => ?_
      obtain ⟨r, -, -, rfl⟩ := mem_below.mp ha
      exact Nat.le_trans (Nat.min_le_right _ _) (inside b hb).1
    refine (low.append (ascending_above ascending _) fun a ha b hb => ?_).coalesce
    obtain ⟨t, -, -, rfl⟩ := mem_above.mp hb
    refine Nat.le_trans ?_ (Nat.le_max_right _ _)
    rcases List.mem_append.mp ha with low | piece
    · obtain ⟨r, -, -, rfl⟩ := mem_below.mp low
      exact Nat.le_trans (Nat.min_le_right _ _) upright
    · exact (inside a piece).2

theorem isMoved_start_le {e : Splice} {r : StyleRun} (shifts : isMoved e r = true) :
    e.old.stop ≤ r.span.start := by
  simp only [isMoved, Bool.and_eq_true, decide_eq_true_eq, Span.isEmpty] at shifts
  split at shifts <;> omega

theorem ascending_apply {e : Splice} (ascending : Ascending x.runs) :
    Ascending (x.apply e).runs := by
  have kept : Ascending (x.runs.filter (isKept e)) :=
    ⟨fun r hr => ascending.nonempty r (List.mem_filter.mp hr).1, ascending.ordered.filter _⟩
  have shifted : Ascending ((x.runs.filter (isMoved e)).map (moved e)) := by
    refine ⟨fun q hq => ?_, List.pairwise_map.mpr ?_⟩
    · obtain ⟨r, hr, rfl⟩ := List.mem_map.mp hq
      obtain ⟨stored, shifts⟩ := List.mem_filter.mp hr
      have behind := isMoved_start_le shifts
      have nonempty := ascending.nonempty r stored
      simp only [moved, Splice.image]
      omega
    · refine (ascending.ordered.filter _).imp fun {a b} before => ?_
      simp only [moved, Splice.image]
      omega
  refine (kept.append shifted fun a ha b hb => ?_).coalesce
  have stays := (List.mem_filter.mp ha).2
  obtain ⟨r, -, rfl⟩ := List.mem_map.mp hb
  simp only [isKept, decide_eq_true_eq] at stays
  simp only [moved, Splice.image]
  omega

/-! ### What a dropped run leaves -/

/-- No run is left over the bytes of a dropped one. -/
theorem styleAt_apply_of_dropped {e : Splice} {r : StyleRun} (ascending : Ascending x.runs)
    (moved : e.preimage? o = some p) (stored : r ∈ x.runs) (inside : p ∈ r.span)
    (dropped : isDropped e r = true) :
    (x.apply e).styleAt o = .unclassified := by
  simp only [isDropped, Bool.and_eq_true, Bool.not_eq_true'] at dropped
  have origin := Splice.preimage?_eq_some_iff.mp moved
  rw [styleAt_eq_categoryAt, apply, categoryAt_coalesce]
  apply categoryAt_of_not_mem
  intro q hq within
  -- A run over the byte would come from one over its origin, which is the dropped run alone.
  rcases List.mem_append.mp hq with kept | shifted
  · obtain ⟨hq, stays⟩ := List.mem_filter.mp kept
    have same : o = p := by
      have stops := stays
      simp only [isKept, decide_eq_true_eq] at stops
      simp only [Span.mem_iff] at within
      omega
    rw [ascending.eq_of_mem hq stored (same ▸ within) inside, dropped.1] at stays
    cases stays
  · obtain ⟨t, ht, rfl⟩ := List.mem_map.mp shifted
    obtain ⟨ht, shifts⟩ := List.mem_filter.mp ht
    have own : p ∈ t.span := by
      have behind := isMoved_start_le shifts
      simp only [StyleIndex.moved, Span.mem_iff, Splice.image] at within ⊢
      omega
    rw [ascending.eq_of_mem ht stored own inside, dropped.2] at shifts
    cases shifts

/-- A byte that an edit moves reads as it did before, or it reads nothing and is in the region that
is reported as lost. -/
theorem styleAt_apply_or_lost {e : Splice} (ascending : Ascending x.runs)
    (upright : e.old.start ≤ e.old.stop) (moved : e.preimage? o = some p) :
    (x.apply e).styleAt o = x.styleAt p ∨ (x.apply e).styleAt o = .unclassified ∧
      ∃ region, x.lost e = some region ∧ o ∈ region := by
  by_cases dropped : ∃ r ∈ x.runs, p ∈ r.span ∧ isDropped e r = true
  · obtain ⟨r, stored, inside, drop⟩ := dropped
    exact Or.inr ⟨styleAt_apply_of_dropped ascending moved stored inside drop,
      mem_lost upright moved stored inside drop⟩
  · refine Or.inl (styleAt_apply_of_survives upright moved fun r hr inside => ?_)
    exact Bool.eq_false_iff.mpr fun drop => dropped ⟨r, hr, inside, drop⟩

/-! ### Along every run -/

theorem LossRun.ascending {given : Nat → Category} {lost : Set Nat} (run : LossRun x given lost) :
    Ascending x.runs := by
  induction run with
  | start => exact ascending_nil
  | replace _ ok ih => exact ascending_of_replace ih ok
  | apply _ _ ih => exact ascending_apply ih
  | clear _ _ => exact ascending_nil

/-- The index reads what a byte was given last, or nothing where a loss was answered; once all that
was lost has been given a category again, it is exact. -/
theorem exact_or_lost {given : Nat → Category} {lost : Set Nat} (run : LossRun x given lost) :
    (∀ o, x.styleAt o = given o ∨ x.styleAt o = .unclassified ∧ o ∈ lost) ∧
      (lost = ∅ → ∀ o, x.styleAt o = given o) := by
  have reads : ∀ o, x.styleAt o = given o ∨ x.styleAt o = .unclassified ∧ o ∈ lost := by
    induction run with
    | start => exact fun o => Or.inl rfl
    | replace run ok ih =>
        intro o
        have tiles := tiles_of_replace ok
        rw [styleAt_of_replace tiles ok, overwrite_of_tiling tiles]
        split
        · exact Or.inl rfl
        · rename_i outside
          exact (ih o).imp_right fun ⟨nothing, gone⟩ => ⟨nothing, gone, outside⟩
    | apply run upright ih =>
        intro o
        unfold Splice.moveMap
        split
        · rename_i new
          exact Or.inl (styleAt_apply_fresh (Splice.preimage?_eq_none_iff.mp new))
        · rename_i p moved
          rcases styleAt_apply_or_lost run.ascending upright moved with same | ⟨nothing, gone⟩
          · rw [same]
            exact (ih p).imp_right fun ⟨nothing, gone⟩ => ⟨nothing, Or.inl ⟨p, gone, moved⟩⟩
          · exact Or.inr ⟨nothing, Or.inr gone⟩
    | clear _ _ => exact fun o => Or.inl rfl
  refine ⟨reads, fun none o => (reads o).resolve_right fun ⟨_, gone⟩ => ?_⟩
  rw [none] at gone
  exact gone

/-- An insertion drops the run that it falls into, a deletion moves what was lost, and two of the
lost bytes are given a category again: the others read nothing and are still on record. -/
theorem lost_after_insertion_and_deletion :
    ∃ (x : StyleIndex) (given : Nat → Category) (lost : Set Nat), LossRun x given lost ∧
      x.runs = [⟨⟨0, 2⟩, .styled 2⟩] ∧ given 1 = .styled 2 ∧ given 4 = .styled 1 ∧ 4 ∈ lost ∧
      (∀ o, x.styleAt o = given o ∨ x.styleAt o = .unclassified ∧ o ∈ lost) ∧
      (lost = ∅ → ∀ o, x.styleAt o = given o) := by
  have painted : LossRun ⟨[⟨⟨0, 6⟩, .styled 1⟩]⟩ (overwrite _ [⟨⟨0, 6⟩, .styled 1⟩])
      {o | o ∈ ∅ ∧ o ∉ (⟨0, 6⟩ : Span)} := LossRun.start.replace rfl
  have inserted := painted.apply (e := ⟨⟨3, 3⟩, 1⟩) (by decide)
  have deleted := inserted.apply (e := ⟨⟨0, 1⟩, 0⟩) (by decide)
  have run : LossRun ⟨[⟨⟨0, 2⟩, .styled 2⟩]⟩ (overwrite _ [⟨⟨0, 2⟩, .styled 2⟩])
      {o | _ ∧ o ∉ (⟨0, 2⟩ : Span)} := deleted.replace rfl
  have all := exact_or_lost run
  refine ⟨_, _, _, run, by decide, by decide, by decide, ?_, all⟩
  exact ((all.1 4).resolve_left (by decide)).2

end StyleIndex

end Highlighting
