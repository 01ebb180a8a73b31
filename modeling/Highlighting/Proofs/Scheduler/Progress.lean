import Highlighting.Proofs.Scheduler.Plan
import Highlighting.Proofs.Spans.Counting

/-!
How much a plan gets done.

Each span that a plan hands out takes at least one byte away from those that wait, so a plan hands
out no more spans than bytes waited, and as long as another job may be outstanding it always hands
out something. The same bounds the loop that cuts chunks: it ends because the jobs or the bytes run
out, after at most as many rounds as bytes wait.
-/

namespace Highlighting

namespace Scheduler

variable {s : Scheduler} {visible : Option Span} {limit most outstanding : Nat} {d : SpanSet}

/-! ### The loop -/

/-- The loop that dispatches jobs. It stops when no more jobs may be outstanding or when no bytes
are left, and otherwise cuts the next chunk and goes on. -/
inductive Dispatches (visible : Option Span) (limit most : Nat) :
    Nat → SpanSet → List Span → SpanSet → Prop where
  | full {outstanding : Nat} {d : SpanSet} :
      most ≤ outstanding → Dispatches visible limit most outstanding d [] d
  | dry {outstanding : Nat} {d : SpanSet} :
      outstanding < most → nextChunk? visible limit d = none →
      Dispatches visible limit most outstanding d [] d
  | round {outstanding : Nat} {d rest : SpanSet} {chunk : Span} {chunks : List Span} :
      outstanding < most → nextChunk? visible limit d = some chunk →
      Dispatches visible limit most (outstanding + 1) (d.erase chunk) chunks rest →
      Dispatches visible limit most outstanding d (chunk :: chunks) rest

theorem dispatches_cutChunks (visible : Option Span) (limit most outstanding : Nat) (d : SpanSet) :
    Dispatches visible limit most outstanding d
      (cutChunks visible limit (most - outstanding) d).1
      (cutChunks visible limit (most - outstanding) d).2 := by
  induction room : most - outstanding generalizing outstanding d with
  | zero => exact .full (Nat.sub_eq_zero_iff_le.mp room)
  | succ count ih =>
      unfold cutChunks
      split
      · rename_i none
        exact .dry (by omega) none
      · rename_i chunk next
        exact .round (by omega) next (ih (outstanding + 1) (d.erase chunk) (by omega))

/-- The jobs of a plan are those of the loop. -/
theorem dispatches_plan (s : Scheduler) (size : Nat) :
    Dispatches s.visible s.config.jobChunk s.config.maxInFlight s.inFlight.length
      ((s.dirty.truncate size).eraseAll (s.plan size).1.inline)
      ((s.plan size).1.jobs.map Job.span) (s.plan size).2.dirty := by
  have loop := dispatches_cutChunks s.visible s.config.jobChunk s.config.maxInFlight
    s.inFlight.length ((s.dirty.truncate size).eraseAll (s.plan size).1.inline)
  unfold plan
  dsimp only
  rw [map_span_newJobs]
  split
  · exact loop
  · exact loop

theorem nextChunk?_eq_none_iff : nextChunk? visible limit d = none ↔ d.isEmpty = true := by
  unfold nextChunk?
  obtain ⟨spans⟩ := d
  cases spans with
  | nil => simp [SpanSet.isEmpty]
  | cons r rest =>
      simp only [SpanSet.isEmpty, List.isEmpty_cons, Bool.false_eq_true, iff_false]
      cases (r :: rest).find? fun r => (visible.map Span.start).getD 0 < r.stop with
      | none => simp
      | some found => simp

/-- The loop leaves bytes only if no further job may be outstanding. -/
theorem Dispatches.most_le {chunks : List Span} {rest : SpanSet}
    (loop : Dispatches visible limit most outstanding d chunks rest) (left : rest ≠ .empty) :
    most ≤ outstanding + chunks.length := by
  induction loop with
  | full enough => exact enough
  | dry _ none =>
      have empty := nextChunk?_eq_none_iff.mp none
      exact absurd (congrArg SpanSet.mk (List.isEmpty_iff.mp empty)) left
  | round _ _ _ ih =>
      have := ih left
      rw [List.length_cons]
      omega

/-! ### What is handed out -/

/-- Chunks and stored spans of the rest are a partition of the set. -/
theorem Split.partition {rest : SpanSet} {chunks : List Span} (split : Split d chunks rest) :
    (∀ c ∈ chunks ++ rest.spans, c.start < c.stop) ∧
      ((chunks ++ rest.spans).Pairwise fun a b => ∀ o ∈ a, o ∉ b) ∧
      Span.cover (chunks ++ rest.spans) = Span.cover d.spans := by
  refine ⟨List.forall_mem_append.mpr ⟨split.nonempty, split.normal.nonempty⟩, ?_, ?_⟩
  · refine List.pairwise_append.mpr ⟨split.disjoint, split.normal.disjoint, ?_⟩
    intro a ha b hb o mem mem'
    exact ((split.mem_rest o).mp ⟨b, hb, mem'⟩).2 a ha mem
  · ext o
    rw [Span.cover_append, Finset.mem_union, Span.mem_cover, Span.mem_cover, Span.mem_cover]
    exact split.mem_iff.symm

/-- Chunks and rest hold as many offsets as the set. -/
theorem Split.total {rest : SpanSet} {chunks : List Span} (normal : d.Normal)
    (split : Split d chunks rest) :
    d.total = (chunks.map Span.length).sum + rest.total := by
  obtain ⟨-, disjoint, cover⟩ := split.partition
  rw [normal.total_eq_card, ← cover, Span.card_cover disjoint, List.map_append, List.sum_append,
    ← rest.total_eq_sum]

theorem Split.length_add_le {rest : SpanSet} {chunks : List Span} (normal : d.Normal)
    (split : Split d chunks rest) : chunks.length + rest.total ≤ d.total := by
  have many := Span.length_le_sum split.nonempty
  rw [split.total normal]
  omega

/-- Each span that a plan hands out was one waiting byte or more. -/
theorem length_plan_add_le (normal : s.dirty.Normal) (size : Nat) :
    (s.plan size).1.inline.length + (s.plan size).1.jobs.length + (s.plan size).2.dirty.total ≤
      s.dirty.total := by
  have planned := planned normal size
  have kept := normal.truncate size
  have truncated : (s.dirty.truncate size).total ≤ s.dirty.total :=
    kept.total_le normal fun o mem => (SpanSet.mem_truncate.mp mem).1
  have inline := planned.inline.length_add_le kept
  have jobs := planned.jobs.length_add_le planned.inline.normal
  rw [List.length_map] at jobs
  omega

/-- With room for a job, a plan leaves fewer bytes waiting if any wait. -/
theorem total_plan_lt (normal : s.dirty.Normal) (size : Nat)
    (room : s.inFlight.length < s.config.maxInFlight) (waits : 0 < s.dirty.total) :
    (s.plan size).2.dirty.total < s.dirty.total := by
  have handedOut := length_plan_add_le normal size
  by_cases none : (s.plan size).1.jobs = []
  · have left : (s.plan size).2.dirty = .empty := by
      by_contra some
      have full := (dispatches_plan s size).most_le some
      rw [none] at full
      exact Nat.not_le_of_lt room full
    rw [left]
    exact waits
  · have some := List.length_pos_iff.mpr none
    omega

end Scheduler

end Highlighting
