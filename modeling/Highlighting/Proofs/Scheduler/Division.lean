import Highlighting.Proofs.Scheduler.Owed
import Highlighting.Proofs.Scheduler.Progress
import Highlighting.Proofs.Spans.Bytes

/-!
How a plan divides the waiting bytes.

A plan answers spans to classify at once and new jobs, and leaves bytes waiting. These three are the
waiting bytes of the document again, and no byte is in two of them (`Scheduler.split_plan`). What is
classified at once is all of them or the visible ones, whichever is few enough first
(`Scheduler.cover_inline`). The loop that dispatches jobs keeps each of them within the size limit
and ends only if no bytes or no jobs are left (`Scheduler.Dispatches.most_le`).

All this needs no promise of a caller. The set of waiting bytes is in normal form after every list of
calls, and nothing else about the scheduler matters to a plan.
-/

namespace Highlighting

/-- All that a plan hands out. -/
def Plan.spans (p : Plan) : List Span :=
  p.inline ++ p.jobs.map Job.span

namespace Scheduler

/-- The scheduler after some calls, with no promise of the caller. -/
def run (s : Scheduler) (calls : List SchedulerCall) : Scheduler :=
  calls.foldl call s

/-- The waiting bytes of a document of `size` bytes. -/
def waiting (s : Scheduler) (size : Nat) : Finset Nat :=
  (Span.cover s.dirty.spans).filter (· < size)

/-- The waiting bytes of the visible part. -/
def urgent (s : Scheduler) (size : Nat) : Finset Nat :=
  (s.waiting size).filter fun o => s.visible.any (·.contains o)

/-- There are some bytes, and at most `limit`. -/
def Few (limit : Nat) (bytes : Finset Nat) : Prop :=
  bytes.Nonempty ∧ bytes.card ≤ limit

instance (limit : Nat) (bytes : Finset Nat) : Decidable (Few limit bytes) :=
  inferInstanceAs (Decidable (_ ∧ _))

variable {s : Scheduler} {d : SpanSet} {o size : Nat}

theorem mem_waiting : o ∈ s.waiting size ↔ o ∈ s.dirty ∧ o < size := by
  rw [waiting, Finset.mem_filter, Span.mem_cover]
  rfl

theorem mem_urgent : o ∈ s.urgent size ↔ o ∈ s.waiting size ∧ ∃ v, s.visible = some v ∧ o ∈ v := by
  rw [urgent, Finset.mem_filter]
  simp [Option.any_eq_true, Span.contains]

theorem cover_truncate (s : Scheduler) (size : Nat) :
    Span.cover (s.dirty.truncate size).spans = s.waiting size := by
  ext o
  rw [mem_waiting, Span.mem_cover, ← SpanSet.mem_truncate]
  rfl

/-! ### What every call keeps -/

theorem normal_call (normal : s.dirty.Normal) (c : SchedulerCall) : (s.call c).dirty.Normal := by
  cases c with
  | setVisible | beginReparse | finishApplying => exact normal
  | noteEdit e => exact SpanSet.normal_splice _ _
  | markDirty span => exact normal.insert span
  | request spans => exact normal_request normal spans
  | plan size => exact (planned normal size).jobs.normal
  | complete id => exact (dirty_complete s id).symm ▸ normal
  | invalidateAll size => exact SpanSet.normal_ofList _
  | reset revision => exact SpanSet.normal_empty
  | requeueInFlight => exact normal.insertAll _

theorem config_call (s : Scheduler) (c : SchedulerCall) : (s.call c).config = s.config := by
  cases c with
  | plan size => exact congrArg Prod.fst (limits_plan s size)
  | complete id => exact congrArg Prod.fst (limits_complete s id)
  | _ => rfl

theorem normal_run (normal : s.dirty.Normal) (calls : List SchedulerCall) :
    (s.run calls).dirty.Normal := by
  induction calls generalizing s with
  | nil => exact normal
  | cons c rest ih => exact ih (normal_call normal c)

theorem config_run (s : Scheduler) (calls : List SchedulerCall) :
    (s.run calls).config = s.config := by
  induction calls generalizing s with
  | nil => rfl
  | cons c rest ih => exact (ih (s.call c)).trans (config_call s c)

/-! ### The three parts -/

/-- Splitting the rest again. -/
theorem Split.append {middle rest : SpanSet} {chunks further : List Span}
    (first : Split d chunks middle) (second : Split middle further rest) :
    Split d (chunks ++ further) rest where
  nonempty := List.forall_mem_append.mpr ⟨first.nonempty, second.nonempty⟩
  inside := List.forall_mem_append.mpr
    ⟨first.inside, fun c hc o mem => ((first.mem_rest o).mp (second.inside c hc o mem)).1⟩
  disjoint := List.pairwise_append.mpr ⟨first.disjoint, second.disjoint, fun a ha b hb o mem mem' =>
    ((first.mem_rest o).mp (second.inside b hb o mem')).2 a ha mem⟩
  mem_rest := fun o => by
    rw [second.mem_rest, first.mem_rest, and_assoc, List.forall_mem_append]
  normal := second.normal

theorem split_plan (normal : s.dirty.Normal) (size : Nat) :
    Split (s.dirty.truncate size) (s.plan size).1.spans (s.plan size).2.dirty :=
  have planned := planned normal size
  planned.inline.append planned.jobs

/-! ### What is classified at once -/

theorem fits_iff (normal : d.Normal) {limit : Nat} :
    fits limit d = true ↔ Few limit (Span.cover d.spans) := by
  have empty : d.isEmpty = false ↔ (Span.cover d.spans).Nonempty := by
    rw [← Bool.not_eq_true, ← normal.total_eq_zero_iff, normal.total_eq_card, Finset.card_eq_zero,
      Finset.nonempty_iff_ne_empty]
  rw [fits, Few, Bool.and_eq_true, Bool.not_eq_true', empty, decide_eq_true_eq,
    normal.total_eq_card]

/-- All waiting bytes if they are few enough, else the visible ones if those are. -/
theorem cover_inline (normal : s.dirty.Normal) (size : Nat) :
    Span.cover (s.plan size).1.inline =
      if Few s.config.syncThreshold (s.waiting size) then s.waiting size
      else if Few s.config.visibleBudget (s.urgent size) then s.urgent size else ∅ := by
  have kept := normal.truncate size
  change Span.cover (inlineSpans { s with dirty := s.dirty.truncate size }) = _
  simp only [inlineSpans, fits_iff kept, cover_truncate]
  split
  · exact cover_truncate s size
  · cases hint : s.visible with
    | none =>
        have none : s.urgent size = ∅ := by simp [urgent, hint]
        simp [none, Few, Span.cover]
    | some v =>
        have visible : Span.cover ((s.dirty.truncate size).within v).spans = s.urgent size := by
          ext o
          rw [mem_urgent, ← cover_truncate, Span.mem_cover, Span.mem_cover, hint]
          simp only [Option.some.injEq, exists_eq_left']
          exact SpanSet.mem_within
        simp only [fits_iff (kept.within v), visible]
        split
        · exact visible
        · rfl

/-! ### What is dispatched -/

section

variable {visible : Option Span} {limit most outstanding : Nat} {rest : SpanSet}
  {chunks : List Span}

theorem length_nextChunk?_le {c : Span} (next : nextChunk? visible limit d = some c) :
    c.length ≤ max limit 1 := by
  unfold nextChunk? at next
  simp only at next
  split at next
  · cases next
  · cases next
    simp only [Span.length]
    omega

theorem Dispatches.length_le (loop : Dispatches visible limit most outstanding d chunks rest) :
    ∀ c ∈ chunks, c.length ≤ max limit 1 := by
  induction loop with
  | full | dry => exact nofun
  | round _ next _ ih => exact List.forall_mem_cons.mpr ⟨length_nextChunk?_le next, ih⟩

end

/-- A job is a piece of one waiting span. -/
theorem exists_span_around_job (normal : s.dirty.Normal) {j : Job}
    (hj : j ∈ (s.plan size).1.jobs) :
    ∃ r ∈ s.dirty.spans, r.start ≤ j.span.start ∧ j.span.stop ≤ r.stop := by
  have split := split_plan normal size
  have mem : j.span ∈ (s.plan size).1.spans :=
    List.mem_append_right _ (List.mem_map_of_mem hj)
  exact normal.exists_span_around (split.nonempty _ mem) fun o ho =>
    (SpanSet.mem_truncate.mp (split.inside _ mem o ho)).1

/-- Nothing is dispatched if all waiting bytes are classified at once. -/
theorem jobs_eq_nil (normal : s.dirty.Normal)
    (all : Span.cover (s.plan size).1.inline = s.waiting size) : (s.plan size).1.jobs = [] := by
  have split := (planned normal size).jobs
  refine List.eq_nil_iff_forall_not_mem.mpr fun j hj => ?_
  have mem : j.span ∈ (s.plan size).1.jobs.map Job.span := List.mem_map_of_mem hj
  have left := split.inside j.span mem j.span.start ⟨Nat.le_refl _, split.nonempty j.span mem⟩
  obtain ⟨waits, notInline⟩ := SpanSet.mem_eraseAll.mp left
  have taken : j.span.start ∈ Span.cover (s.plan size).1.inline := by
    rw [all, mem_waiting, ← SpanSet.mem_truncate]
    exact waits
  obtain ⟨t, ht, inside⟩ := Span.mem_cover.mp taken
  exact notInline t ht inside

/-- A plan divides the waiting bytes of the document without loss: the spans it hands out and those
that go on waiting are not empty, share no byte and are the waiting bytes together. Few enough bytes
are classified at once, else the visible ones if those are few enough. A job has no more bytes than
its size limit, at least one, all of one waiting span, and belongs to the epoch and the revision of
the plan. Jobs that were outstanding stay as they are, and bytes are left only if no further job may
be outstanding. -/
theorem plan_divides_waiting_bytes (config : SchedulerConfig) (revision : Revision)
    (calls : List SchedulerCall) (size : Nat) :
    let s := (start config revision).run calls
    let p := (s.plan size).1
    let t := (s.plan size).2
    (∀ c ∈ p.spans ++ t.dirty.spans, c.start < c.stop) ∧
      ((p.spans ++ t.dirty.spans).Pairwise fun a b => ∀ o ∈ a, o ∉ b) ∧
      Span.cover (p.spans ++ t.dirty.spans) = s.waiting size ∧
      (Few config.syncThreshold (s.waiting size) →
        Span.cover p.inline = s.waiting size ∧ p.jobs = []) ∧
      (¬Few config.syncThreshold (s.waiting size) →
        Span.cover p.inline =
          if Few config.visibleBudget (s.urgent size) then s.urgent size else ∅) ∧
      (∀ j ∈ p.jobs, j.span.length ≤ max 1 config.jobChunk ∧
        (∃ r ∈ s.dirty.spans, r.start ≤ j.span.start ∧ j.span.stop ≤ r.stop) ∧
        j.epoch = s.epoch ∧ j.revision = s.revision) ∧
      t.inFlight = s.inFlight ++ p.jobs ∧
      (t.dirty ≠ .empty → config.maxInFlight ≤ t.inFlight.length) := by
  intro s p t
  have normal : s.dirty.Normal := normal_run SpanSet.normal_empty calls
  have same : s.config = config := config_run _ calls
  have planned := planned normal size
  have loop := dispatches_plan s size
  have inline := cover_inline normal size
  rw [same] at loop inline
  obtain ⟨nonempty, disjoint, cover⟩ := (split_plan normal size).partition
  refine ⟨nonempty, disjoint, cover.trans (cover_truncate s size), fun few => ?_, fun many => ?_,
    fun j hj => ?_, planned.inFlight, fun left => ?_⟩
  · rw [if_pos few] at inline
    exact ⟨inline, jobs_eq_nil normal inline⟩
  · rwa [if_neg many] at inline
  · obtain ⟨epoch, revision, -⟩ := planned.current j hj
    have short := loop.length_le j.span (List.mem_map_of_mem hj)
    exact ⟨max_comm 1 config.jobChunk ▸ short, exists_span_around_job normal hj, epoch, revision⟩
  · rw [planned.inFlight, List.length_append]
    have enough := loop.most_le left
    rwa [List.length_map] at enough

/-- The visible bytes are classified at once, and the job begins behind them. -/
example :
    let s := (start ⟨2, 3, 4, 1⟩ 0).run [.request [⟨0, 20⟩], .setVisible (some ⟨9, 12⟩)]
    (s.plan 18).1 = ⟨[⟨9, 12⟩], [⟨1, 0, 0, ⟨12, 16⟩⟩]⟩ ∧
      (s.plan 18).2.dirty = ⟨[⟨0, 9⟩, ⟨16, 18⟩]⟩ := by
  decide

end Scheduler

end Highlighting
