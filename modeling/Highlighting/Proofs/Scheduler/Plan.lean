import Highlighting.Proofs.Scheduler.Books

/-!
What a plan hands out.

`Scheduler.Split` says that some chunks and a rest make up a set of bytes and have no byte in
common. A plan splits the waiting bytes twice, into the ones to classify at once and the rest, and
that rest into new jobs and the bytes that go on waiting (`Scheduler.planned`).
-/

namespace Highlighting

namespace Scheduler

variable {s : Scheduler} {o : Nat}

/-- The chunks and the rest make up the set, and no two of them share an offset. -/
structure Split (d : SpanSet) (chunks : List Span) (rest : SpanSet) : Prop where
  nonempty : ∀ c ∈ chunks, c.start < c.stop
  inside : ∀ c ∈ chunks, ∀ o ∈ c, o ∈ d
  disjoint : chunks.Pairwise fun a b => ∀ o ∈ a, o ∉ b
  mem_rest : ∀ o, o ∈ rest ↔ o ∈ d ∧ ∀ c ∈ chunks, o ∉ c
  normal : rest.Normal

theorem Split.mem_iff {d rest : SpanSet} {chunks : List Span} (split : Split d chunks rest) :
    o ∈ d ↔ (∃ c ∈ chunks, o ∈ c) ∨ o ∈ rest := by
  constructor
  · intro mem
    by_cases taken : ∃ c ∈ chunks, o ∈ c
    · exact Or.inl taken
    · exact Or.inr ((split.mem_rest o).mpr ⟨mem, fun c hc inside => taken ⟨c, hc, inside⟩⟩)
  · rintro (⟨c, hc, inside⟩ | left)
    · exact split.inside c hc o inside
    · exact ((split.mem_rest o).mp left).1

/-- The chunks end where the set does. -/
theorem Split.stop_le {d rest : SpanSet} {chunks : List Span} {limit : Nat}
    (split : Split d chunks rest) (below : ∀ o ∈ d, o < limit) : ∀ c ∈ chunks, c.stop ≤ limit := by
  intro c hc
  have nonempty := split.nonempty c hc
  have last : c.stop - 1 ∈ c := ⟨by omega, by omega⟩
  have := below _ (split.inside c hc _ last)
  omega

theorem split_nil {d : SpanSet} (normal : d.Normal) : Split d [] d :=
  ⟨nofun, nofun, List.Pairwise.nil, by simp, normal⟩

/-- Spans of a set are split off by erasing them. -/
theorem split_eraseAll {d : SpanSet} {chosen : SpanSet} (normal : d.Normal)
    (normal' : chosen.Normal) (inside : ∀ o ∈ chosen, o ∈ d) :
    Split d chosen.spans (d.eraseAll chosen.spans) where
  nonempty := normal'.nonempty
  inside := fun c hc o mem => inside o ⟨c, hc, mem⟩
  disjoint := normal'.disjoint
  mem_rest := fun _ => SpanSet.mem_eraseAll
  normal := normal.eraseAll _

theorem split_inline (normal : s.dirty.Normal) :
    Split s.dirty s.inlineSpans (s.dirty.eraseAll s.inlineSpans) := by
  have nothing : Split s.dirty [] (s.dirty.eraseAll []) := split_nil normal
  unfold inlineSpans
  split
  · exact split_eraseAll normal normal fun o mem => mem
  · split
    · exact nothing
    · dsimp only
      split
      · exact split_eraseAll normal (normal.within _) fun o mem => (SpanSet.mem_within.mp mem).1
      · exact nothing

/-- The next chunk is a part of one waiting span. -/
theorem bounds_of_nextChunk? {visible : Option Span} {limit : Nat} {d : SpanSet} {c : Span}
    (normal : d.Normal) (next : nextChunk? visible limit d = some c) :
    c.start < c.stop ∧ ∃ r ∈ d.spans, r.start ≤ c.start ∧ c.stop ≤ r.stop := by
  unfold nextChunk? at next
  simp only at next
  split at next
  · cases next
  · rename_i r found
    have mem : r ∈ d.spans := by
      cases first : d.spans.find? fun r => (visible.map Span.start).getD 0 < r.stop with
      | none =>
          rw [first] at found
          exact List.mem_of_head? found
      | some r' =>
          rw [first] at found
          cases found
          exact List.mem_of_find?_eq_some first
    have nonempty := normal.nonempty r mem
    cases next
    refine ⟨?_, r, mem, ?_, ?_⟩
    · simp only
      split
      · rename_i within
        simp only [Span.contains, Span.mem_iff, decide_eq_true_eq] at within
        omega
      · omega
    · simp only
      split
      · rename_i within
        simp only [Span.contains, Span.mem_iff, decide_eq_true_eq] at within
        omega
      · exact Nat.le_refl _
    · exact Nat.min_le_left _ _

theorem split_cutChunks {d : SpanSet} (visible : Option Span) (limit count : Nat)
    (normal : d.Normal) :
    Split d (cutChunks visible limit count d).1 (cutChunks visible limit count d).2 := by
  induction count generalizing d with
  | zero => exact split_nil normal
  | succ count ih =>
      unfold cutChunks
      split
      · exact split_nil normal
      · rename_i chunk next
        obtain ⟨nonempty, r, hr, starts, stops⟩ := bounds_of_nextChunk? normal next
        -- The other chunks are cut from what the first one has left, so they stay clear of it.
        have further := ih (normal.erase chunk)
        refine ⟨List.forall_mem_cons.mpr ⟨nonempty, further.nonempty⟩,
          List.forall_mem_cons.mpr ⟨fun o mem => ?_, fun c hc o mem => ?_⟩,
          List.pairwise_cons.mpr ⟨fun c hc o mem mem' => ?_, further.disjoint⟩, fun o => ?_,
          further.normal⟩
        · refine ⟨r, hr, ?_⟩
          simp only [Span.mem_iff] at mem ⊢
          omega
        · exact (SpanSet.mem_erase.mp (further.inside c hc o mem)).1
        · exact (SpanSet.mem_erase.mp (further.inside c hc o mem')).2 mem
        · rw [further.mem_rest o, SpanSet.mem_erase, List.forall_mem_cons, and_assoc]

/-! ### New jobs -/

theorem map_span_newJobs (s : Scheduler) (spans : List Span) :
    (s.newJobs spans).map Job.span = spans := by
  simp only [newJobs, List.map_map]
  exact List.zipIdx_map_fst 0 spans

theorem mem_newJobs {spans : List Span} {j : Job} (mem : j ∈ s.newJobs spans) :
    j.epoch = s.epoch ∧ j.revision = s.revision ∧ s.lastJob < j.id ∧
      j.id ≤ s.lastJob + (s.newJobs spans).length := by
  simp only [newJobs, List.mem_map, List.length_map, List.length_zipIdx] at mem ⊢
  obtain ⟨⟨span, n⟩, indexed, rfl⟩ := mem
  have below := List.snd_lt_of_mem_zipIdx indexed
  refine ⟨rfl, rfl, ?_, ?_⟩
  · exact Nat.lt_succ_of_le (Nat.le_add_right _ _)
  · exact Nat.succ_le_of_lt (Nat.add_lt_add_left (by omega) _)

theorem numbered_newJobs (s : Scheduler) (spans : List Span) :
    (s.newJobs spans).Pairwise fun i j => i.id < j.id := by
  simp only [newJobs, List.pairwise_map]
  apply List.pairwise_iff_getElem.mpr
  intro m n hm hn before
  simp only [List.getElem_zipIdx]
  exact Nat.add_lt_add_right (Nat.add_lt_add_left (by omega) _) 1

theorem length_cutChunks_le (visible : Option Span) (limit count : Nat) (d : SpanSet) :
    (cutChunks visible limit count d).1.length ≤ count := by
  induction count generalizing d with
  | zero => exact Nat.le_refl _
  | succ count ih =>
      unfold cutChunks
      split
      · exact Nat.zero_le _
      · exact Nat.succ_le_succ (ih _)

/-- A plan dispatches no more jobs than may be outstanding beside those that are. -/
theorem length_jobs_plan_le (s : Scheduler) (size : Nat) :
    (s.plan size).1.jobs.length ≤ s.config.maxInFlight - s.inFlight.length := by
  have cut := length_cutChunks_le s.visible s.config.jobChunk
    (s.config.maxInFlight - s.inFlight.length)
  simp only [plan, newJobs, List.length_map, List.length_zipIdx]
  exact cut _

theorem limits_plan (s : Scheduler) (size : Nat) : (s.plan size).2.limits = s.limits := by
  unfold plan
  dsimp only
  split <;> rfl

/-- What a plan answers and does to the books. -/
structure Planned (s : Scheduler) (size : Nat) (p : Plan) (t : Scheduler) : Prop where
  inline : Split (s.dirty.truncate size) p.inline ((s.dirty.truncate size).eraseAll p.inline)
  jobs : Split ((s.dirty.truncate size).eraseAll p.inline) (p.jobs.map Job.span) t.dirty
  numbered : p.jobs.Pairwise fun i j => i.id < j.id
  current : ∀ j ∈ p.jobs, j.epoch = s.epoch ∧ j.revision = s.revision ∧ s.lastJob < j.id ∧
    j.id ≤ t.lastJob
  inFlight : t.inFlight = s.inFlight ++ p.jobs
  lastJob : s.lastJob ≤ t.lastJob
  epoch : t.epoch = s.epoch
  revision : t.revision = s.revision

theorem planned (normal : s.dirty.Normal) (size : Nat) :
    Planned s size (s.plan size).1 (s.plan size).2 := by
  have first : Split (s.dirty.truncate size) _ _ :=
    split_inline (s := { s with dirty := s.dirty.truncate size }) (normal.truncate size)
  have second := split_cutChunks s.visible s.config.jobChunk
    (s.config.maxInFlight - s.inFlight.length) first.normal
  constructor
  · exact first
  · unfold plan
    dsimp only
    rw [map_span_newJobs]
    split
    · exact second
    · exact second
  · exact numbered_newJobs _ _
  · intro j hj
    obtain ⟨epoch, revision, later, bound⟩ := mem_newJobs hj
    refine ⟨epoch, revision, later, ?_⟩
    unfold plan
    dsimp only
    split
    · exact bound
    · exact bound
  all_goals
    unfold plan
    dsimp only
    split
  · rfl
  · rfl
  · exact Nat.le_add_right _ _
  · exact Nat.le_add_right _ _
  all_goals rfl

/-- The waiting bytes of the document are handed out or go on waiting. -/
theorem Planned.mem_dirty {size : Nat} {p : Plan} {t : Scheduler} (planned : Planned s size p t) :
    o ∈ s.dirty ∧ o < size ↔
      (∃ c ∈ p.inline, o ∈ c) ∨ (∃ j ∈ p.jobs, o ∈ j.span) ∨ o ∈ t.dirty := by
  rw [← SpanSet.mem_truncate, planned.inline.mem_iff, planned.jobs.mem_iff]
  simp only [List.mem_map, exists_exists_and_eq_and]

theorem Planned.liveJobs {size : Nat} {p : Plan} {t : Scheduler} (planned : Planned s size p t) :
    t.liveJobs = s.liveJobs ++ p.jobs := by
  have live : t.isLive = s.isLive := by
    funext j
    simp only [isLive, planned.epoch, planned.revision]
  have all : p.jobs.filter s.isLive = p.jobs := by
    apply List.filter_eq_self.mpr
    intro j hj
    obtain ⟨epoch, revision, -⟩ := planned.current j hj
    simp [isLive, epoch, revision]
  rw [Scheduler.liveJobs, Scheduler.liveJobs, planned.inFlight, live, List.filter_append, all]

/-- Nothing is handed out that lies past the end of the document. -/
theorem Planned.stop_le {size : Nat} {p : Plan} {t : Scheduler} (planned : Planned s size p t) :
    (∀ c ∈ p.inline, c.stop ≤ size) ∧ ∀ j ∈ p.jobs, j.span.stop ≤ size := by
  refine ⟨planned.inline.stop_le fun o mem => (SpanSet.mem_truncate.mp mem).2, fun j hj => ?_⟩
  refine planned.jobs.stop_le (fun o mem => ?_) j.span (List.mem_map_of_mem hj)
  exact (SpanSet.mem_truncate.mp (SpanSet.mem_eraseAll.mp mem).1).2

theorem Planned.sound {size : Nat} {p : Plan} {t : Scheduler} (planned : Planned s size p t)
    (sound : s.Sound) : t.Sound where
  normal := planned.jobs.normal
  numbered := by
    rw [planned.inFlight]
    refine List.pairwise_append.mpr ⟨sound.numbered, planned.numbered, fun i hi j hj => ?_⟩
    exact Nat.lt_of_le_of_lt (sound.issued i hi) (planned.current j hj).2.2.1
  issued := by
    intro j hj
    rw [planned.inFlight] at hj
    rcases List.mem_append.mp hj with old | new
    · exact Nat.le_trans (sound.issued j old) planned.lastJob
    · exact (planned.current j new).2.2.2
  dated := by
    intro j hj
    rw [planned.inFlight] at hj
    rw [planned.epoch, planned.revision]
    rcases List.mem_append.mp hj with old | new
    · exact sound.dated j old
    · obtain ⟨epoch, revision, -⟩ := planned.current j new
      exact Or.inr ⟨epoch, Nat.le_of_eq revision⟩
  nonempty := by
    intro j hj
    rw [planned.inFlight] at hj
    rcases List.mem_append.mp hj with old | new
    · exact sound.nonempty j old
    · exact planned.jobs.nonempty j.span (List.mem_map_of_mem new)

theorem Sound.plan (sound : s.Sound) (size : Nat) : (s.plan size).2.Sound :=
  (planned sound.normal size).sound sound

/-- Where no byte waits, nothing is handed out. -/
theorem plan_of_clean (clean : s.dirty = .empty) (size : Nat) :
    s.plan size = (⟨[], []⟩, s.settlePhase) := by
  obtain ⟨config, phase, epoch, revision, lastJob, dirty, inFlight, visible⟩ := s
  obtain rfl : dirty = SpanSet.empty := clean
  have truncated : SpanSet.empty.truncate size = SpanSet.empty := rfl
  have kept : SpanSet.empty.eraseAll [] = SpanSet.empty := rfl
  have inline : inlineSpans ⟨config, phase, epoch, revision, lastJob, SpanSet.empty, inFlight,
      visible⟩ = [] := by
    unfold inlineSpans
    cases visible with
    | none => rfl
    | some v => rfl
  have chunks : ∀ count,
      cutChunks visible config.jobChunk count SpanSet.empty = ([], SpanSet.empty) := by
    intro count
    cases count with
    | zero => rfl
    | succ count => rfl
  unfold plan
  dsimp only
  rw [truncated, inline, kept, chunks]
  simp [newJobs, Plan.isEmpty]

end Scheduler

end Highlighting
