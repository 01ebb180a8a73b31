import Highlighting.Proofs.Scheduler.Owed

/-!
How owed bytes are done.

While no edit arrives and nothing is requested, owed bytes are only done, each of them once: a plan
and the results of jobs both move some spans from what is owed to what is done
(`Scheduler.Advanced`). Such moves compose, so once nothing is owed any more, what was done on the
way tiles what was owed at the start.
-/

namespace Highlighting

namespace Scheduler

variable {s t u : Scheduler} {owed : Set Nat} {o size : Nat} {done later : List Span}

/-- From one moment to a later one some spans were done that were owed. No two of them share a
byte, and of the bytes of the text just the others are still owed. -/
structure Advanced (size : Nat) (done : List Span) (t s : Scheduler) : Prop where
  accounts : t.Accounts {o | t.Owes o}
  disjoint : done.Pairwise fun a b => ∀ o ∈ a, o ∉ b
  owed : ∀ c ∈ done, ∀ o ∈ c, s.Owes o ∧ o < size
  rest : ∀ o < size, t.Owes o ↔ s.Owes o ∧ ∀ c ∈ done, o ∉ c

theorem Accounts.owes (accounts : s.Accounts owed) : s.Accounts {o | s.Owes o} :=
  ⟨accounts.sound, accounts.disjoint, accounts.apart, fun _ => Iff.rfl⟩

theorem Advanced.trans (second : Advanced size later u t) (first : Advanced size done t s) :
    Advanced size (done ++ later) u s where
  accounts := second.accounts
  disjoint := by
    refine List.pairwise_append.mpr ⟨first.disjoint, second.disjoint, fun c hc d hd o mem mem' => ?_⟩
    obtain ⟨owed, inside⟩ := second.owed d hd o mem'
    exact ((first.rest o inside).mp owed).2 c hc mem
  owed := by
    intro c hc o mem
    rcases List.mem_append.mp hc with early | late
    · exact first.owed c early o mem
    · obtain ⟨owed, inside⟩ := second.owed c late o mem
      exact ⟨((first.rest o inside).mp owed).1, inside⟩
  rest := by
    intro o inside
    rw [second.rest o inside, first.rest o inside, List.forall_mem_append, and_assoc]

theorem advanced_of_sameBooks (accounts : s.Accounts {o | s.Owes o}) (same : SameBooks t s) :
    Advanced size [] t s where
  accounts := (accounts.of_sameBooks same).owes
  disjoint := List.Pairwise.nil
  owed := nofun
  rest := fun o _ => by simp [same.owes_iff]

/-- When nothing is owed any more, what was done is what was owed. -/
theorem Advanced.covers (advanced : Advanced size done t s) (nothing : ∀ o, ¬t.Owes o) :
    (∃ c ∈ done, o ∈ c) ↔ s.Owes o ∧ o < size := by
  constructor
  · rintro ⟨c, hc, mem⟩
    exact advanced.owed c hc o mem
  · rintro ⟨owed, inside⟩
    by_contra undone
    refine nothing o ((advanced.rest o inside).mpr ⟨owed, fun c hc mem => ?_⟩)
    exact undone ⟨c, hc, mem⟩

/-- What a plan answers to be classified at once is done. -/
theorem advanced_plan (accounts : s.Accounts {o | s.Owes o}) (size : Nat) :
    Advanced size (s.plan size).1.inline (s.plan size).2 s where
  accounts := (accounts.plan size).owes
  disjoint := (planned accounts.sound.normal size).inline.disjoint
  owed := by
    intro c hc o mem
    have waits := (planned accounts.sound.normal size).inline.inside c hc o mem
    obtain ⟨dirty, inside⟩ := SpanSet.mem_truncate.mp waits
    exact ⟨Or.inl dirty, inside⟩
  rest := by
    intro o inside
    rw [← (accounts.plan size).mem_owed o]
    constructor
    · exact fun left => ⟨left.1, left.2.1⟩
    · exact fun left => ⟨left.1, left.2, fun past => Nat.not_le.mpr inside past.2⟩

/-! ### Jobs that leave the books -/

/-- Some jobs may have left the books; nothing else on them has changed. -/
structure Fewer (t s : Scheduler) : Prop where
  dirty : t.dirty = s.dirty
  inFlight : t.inFlight.Sublist s.inFlight
  epoch : t.epoch = s.epoch
  revision : t.revision = s.revision

/-- The spans of the live jobs that left the books from one moment to a later one. -/
def finishedSpans (s t : Scheduler) : List Span :=
  (s.liveJobs.filter fun j => j ∉ t.inFlight).map Job.span

theorem Fewer.trans (second : Fewer u t) (first : Fewer t s) : Fewer u s where
  dirty := second.dirty.trans first.dirty
  inFlight := second.inFlight.trans first.inFlight
  epoch := second.epoch.trans first.epoch
  revision := second.revision.trans first.revision

theorem SameBooks.fewer {id : JobId} (same : SameBooks t (s.without id)) : Fewer t s where
  dirty := same.dirty
  inFlight := by
    rw [same.inFlight]
    exact List.filter_sublist
  epoch := same.epoch
  revision := same.revision

theorem Fewer.sublist_liveJobs (fewer : Fewer t s) : t.liveJobs.Sublist s.liveJobs := by
  have live : t.isLive = s.isLive := by
    funext j
    rw [isLive, isLive, fewer.epoch, fewer.revision]
  unfold liveJobs
  rw [live]
  exact fewer.inFlight.filter _

theorem Fewer.mem_liveJobs (fewer : Fewer t s) {j : Job} :
    j ∈ t.liveJobs ↔ j ∈ s.liveJobs ∧ j ∈ t.inFlight := by
  constructor
  · exact fun live => ⟨fewer.sublist_liveJobs.subset live, (Scheduler.mem_liveJobs.mp live).1⟩
  · rintro ⟨live, stays⟩
    rw [Scheduler.mem_liveJobs, fewer.epoch, fewer.revision]
    exact ⟨stays, (Scheduler.mem_liveJobs.mp live).2⟩

theorem mem_finishedSpans {c : Span} :
    c ∈ finishedSpans s t ↔ ∃ j ∈ s.liveJobs, j ∉ t.inFlight ∧ j.span = c := by
  simp [finishedSpans, and_assoc]

/-- The spans of the live jobs that left are done. -/
theorem Fewer.advanced (fewer : Fewer t s) (accounts : s.Accounts {o | s.Owes o}) (sound : t.Sound)
    (inside : ∀ j ∈ s.liveJobs, j.span.stop ≤ size) :
    Advanced size (finishedSpans s t) t s where
  accounts := by
    refine ⟨sound, accounts.disjoint.sublist fewer.sublist_liveJobs, fun j hj => ?_,
      fun _ => Iff.rfl⟩
    rw [fewer.dirty]
    exact accounts.apart j (fewer.mem_liveJobs.mp hj).1
  disjoint := List.pairwise_map.mpr (accounts.disjoint.filter _)
  owed := by
    intro c hc o mem
    obtain ⟨j, live, -, rfl⟩ := mem_finishedSpans.mp hc
    exact ⟨Or.inr ⟨j, live, mem⟩, Nat.lt_of_lt_of_le mem.2 (inside j live)⟩
  rest := by
    intro o _
    constructor
    · rintro (waits | ⟨j, hj, within⟩)
      · rw [fewer.dirty] at waits
        refine ⟨Or.inl waits, fun c hc mem => ?_⟩
        obtain ⟨i, live, -, rfl⟩ := mem_finishedSpans.mp hc
        exact accounts.apart i live o mem waits
      · obtain ⟨live, stays⟩ := fewer.mem_liveJobs.mp hj
        refine ⟨Or.inr ⟨j, live, within⟩, fun c hc mem => ?_⟩
        obtain ⟨i, live', left, rfl⟩ := mem_finishedSpans.mp hc
        exact accounts.disjoint_of_ne live' live (fun same => left (same ▸ stays)) o mem within
    · rintro ⟨waits | ⟨j, live, within⟩, undone⟩
      · left
        rw [fewer.dirty]
        exact waits
      · right
        by_cases stays : j ∈ t.inFlight
        · exact ⟨j, fewer.mem_liveJobs.mpr ⟨live, stays⟩, within⟩
        · exact absurd within (undone j.span (mem_finishedSpans.mpr ⟨j, live, stays, rfl⟩))

end Scheduler

end Highlighting
