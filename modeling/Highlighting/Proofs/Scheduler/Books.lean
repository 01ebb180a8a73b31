import Highlighting.Proofs.Spans
import Highlighting.Scheduler.Plan
import Mathlib.Logic.Basic

/-!
The books of a scheduler.

`Scheduler.Sound` is what holds of the books at any time: jobs are numbered in order of dispatch,
none comes from a later epoch or revision than the current one, and no span is empty. Every call
keeps it. From it follows which jobs are live after a call: none after an edit, a new epoch or a
reset (`liveJobs_noteEdit` and its like), one less after a completion (`complete_cases`), and the
old and the new ones after a plan, which splits the waiting bytes exactly (`Scheduler.Split`).
-/

namespace Highlighting

namespace Scheduler

variable {s : Scheduler} {o : Nat}

theorem mem_liveJobs {j : Job} :
    j ∈ s.liveJobs ↔ j ∈ s.inFlight ∧ j.epoch = s.epoch ∧ j.revision = s.revision := by
  simp [liveJobs, isLive]

theorem mem_promised {t : Span} : t ∈ s.promised ↔ ∃ j ∈ s.liveJobs, j.span = t := by
  simp [promised]

/-- The offset waits, or a live job has promised it. -/
def Owes (s : Scheduler) (o : Nat) : Prop :=
  o ∈ s.dirty ∨ ∃ j ∈ s.liveJobs, o ∈ j.span

theorem owes_iff : s.Owes o ↔ o ∈ s.dirty.insertAll s.promised := by
  simp only [Owes, SpanSet.mem_insertAll, mem_promised, exists_exists_and_eq_and]
  exact or_comm

structure Sound (s : Scheduler) : Prop where
  normal : s.dirty.Normal
  numbered : s.inFlight.Pairwise fun i j => i.id < j.id
  issued : ∀ j ∈ s.inFlight, j.id ≤ s.lastJob
  dated : ∀ j ∈ s.inFlight, j.epoch < s.epoch ∨ j.epoch = s.epoch ∧ j.revision ≤ s.revision
  nonempty : ∀ j ∈ s.inFlight, j.span.start < j.span.stop

theorem sound_start (config : SchedulerConfig) (revision : Revision) :
    (start config revision).Sound :=
  ⟨SpanSet.normal_empty, List.Pairwise.nil, nofun, nofun, nofun⟩

/-- The two schedulers differ at most in phase, limits and visible part. -/
structure SameBooks (t s : Scheduler) : Prop where
  dirty : t.dirty = s.dirty
  inFlight : t.inFlight = s.inFlight
  epoch : t.epoch = s.epoch
  revision : t.revision = s.revision
  lastJob : t.lastJob = s.lastJob

theorem sameBooks_settlePhase (s : Scheduler) : SameBooks s.settlePhase s :=
  ⟨rfl, rfl, rfl, rfl, rfl⟩

theorem sameBooks_beginReparse (s : Scheduler) : SameBooks s.beginReparse s :=
  ⟨rfl, rfl, rfl, rfl, rfl⟩

theorem sameBooks_setVisible (s : Scheduler) (visible : Option Span) :
    SameBooks (s.setVisible visible) s :=
  ⟨rfl, rfl, rfl, rfl, rfl⟩

theorem SameBooks.trans {t u : Scheduler} (first : SameBooks u t) (second : SameBooks t s) :
    SameBooks u s where
  dirty := first.dirty.trans second.dirty
  inFlight := first.inFlight.trans second.inFlight
  epoch := first.epoch.trans second.epoch
  revision := first.revision.trans second.revision
  lastJob := first.lastJob.trans second.lastJob

theorem SameBooks.symm {t : Scheduler} (same : SameBooks t s) : SameBooks s t where
  dirty := same.dirty.symm
  inFlight := same.inFlight.symm
  epoch := same.epoch.symm
  revision := same.revision.symm
  lastJob := same.lastJob.symm

theorem SameBooks.sound {t : Scheduler} (same : SameBooks t s) (sound : s.Sound) : t.Sound where
  normal := by
    rw [same.dirty]
    exact sound.normal
  numbered := by
    rw [same.inFlight]
    exact sound.numbered
  issued := by
    rw [same.inFlight, same.lastJob]
    exact sound.issued
  dated := by
    rw [same.inFlight, same.epoch, same.revision]
    exact sound.dated
  nonempty := by
    rw [same.inFlight]
    exact sound.nonempty

theorem SameBooks.liveJobs {t : Scheduler} (same : SameBooks t s) : t.liveJobs = s.liveJobs := by
  unfold Scheduler.liveJobs
  rw [same.inFlight]
  apply List.filter_congr
  intro j _
  rw [isLive, isLive, same.epoch, same.revision]

theorem SameBooks.owes_iff {t : Scheduler} (same : SameBooks t s) : t.Owes o ↔ s.Owes o := by
  rw [Owes, Owes, same.dirty, same.liveJobs]

theorem Sound.settlePhase (sound : s.Sound) : s.settlePhase.Sound :=
  (sameBooks_settlePhase s).sound sound

theorem Sound.beginReparse (sound : s.Sound) : s.beginReparse.Sound :=
  (sameBooks_beginReparse s).sound sound

theorem Sound.setVisible (sound : s.Sound) (visible : Option Span) :
    (s.setVisible visible).Sound :=
  (sameBooks_setVisible s visible).sound sound

/-- What the caller has set. Only `setVisible` changes it. -/
def limits (s : Scheduler) : SchedulerConfig × Option Span :=
  (s.config, s.visible)

theorem dirty_complete (s : Scheduler) (id : JobId) : (s.complete id).2.dirty = s.dirty := by
  unfold complete
  split
  · rfl
  · dsimp only
    split <;> rfl

theorem limits_complete (s : Scheduler) (id : JobId) : (s.complete id).2.limits = s.limits := by
  unfold complete
  split
  · rfl
  · dsimp only
    split <;> rfl

/-! ### Edits, epochs and resets -/

/-- An edit supersedes every job. -/
theorem liveJobs_noteEdit (sound : s.Sound) {e : Edit} (later : s.revision < e.revision) :
    (s.noteEdit e).liveJobs = [] := by
  apply List.filter_eq_nil_iff.mpr
  intro j hj live
  simp only [isLive, noteEdit, Bool.and_eq_true, beq_iff_eq] at live
  rcases sound.dated j hj with older | ⟨-, past⟩
  · exact Nat.ne_of_lt older live.1
  · exact Nat.ne_of_lt (Nat.lt_of_le_of_lt past later) live.2

theorem Sound.noteEdit (sound : s.Sound) {e : Edit} (later : s.revision < e.revision) :
    (s.noteEdit e).Sound := by
  refine ⟨SpanSet.normal_splice _ _, sound.numbered, sound.issued, fun j hj => ?_, sound.nonempty⟩
  rcases sound.dated j hj with older | ⟨same, past⟩
  · exact Or.inl older
  · exact Or.inr ⟨same, Nat.le_of_lt (Nat.lt_of_le_of_lt past later)⟩

/-- An edit carries all bytes that are owed. -/
theorem mem_dirty_noteEdit (sound : s.Sound) {e : Edit} (upright : e.span.start ≤ e.span.stop) :
    o ∈ (s.noteEdit e).dirty ↔ (∃ p, s.Owes p ∧ e.splice.preimage? o = some p) ∨
      (o ∈ e.newSpan ∧ ∃ b, s.Owes b ∧ e.span.start ≤ b + 1 ∧ b ≤ e.span.stop) := by
  have owed := sound.normal.insertAll s.promised
  simp only [Scheduler.noteEdit, owes_iff]
  exact SpanSet.mem_splice upright owed.nonempty

theorem Sound.epoch_le (sound : s.Sound) {j : Job} (hj : j ∈ s.inFlight) : j.epoch ≤ s.epoch := by
  rcases sound.dated j hj with older | ⟨same, -⟩
  · exact Nat.le_of_lt older
  · exact Nat.le_of_eq same

/-- A new epoch supersedes every job. -/
theorem liveJobs_invalidateAll (sound : s.Sound) (size : Nat) :
    (s.invalidateAll size).liveJobs = [] := by
  apply List.filter_eq_nil_iff.mpr
  intro j hj live
  simp only [isLive, invalidateAll, settlePhase, Bool.and_eq_true, beq_iff_eq] at live
  exact Nat.ne_of_lt (Nat.lt_succ_of_le (sound.epoch_le hj)) live.1

theorem Sound.invalidateAll (sound : s.Sound) (size : Nat) : (s.invalidateAll size).Sound := by
  exact Sound.settlePhase ⟨SpanSet.normal_ofList _, sound.numbered, sound.issued,
    fun j hj => Or.inl (Nat.lt_succ_of_le (sound.epoch_le hj)), sound.nonempty⟩

theorem mem_dirty_invalidateAll {size : Nat} : o ∈ (s.invalidateAll size).dirty ↔ o < size := by
  simp [invalidateAll, Scheduler.settlePhase, Span.mem_iff]

theorem sound_reset (s : Scheduler) (revision : Revision) : (s.reset revision).Sound :=
  ⟨SpanSet.normal_empty, List.Pairwise.nil, nofun, nofun, nofun⟩

theorem Sound.requeueInFlight (sound : s.Sound) : s.requeueInFlight.Sound :=
  Sound.settlePhase ⟨sound.normal.insertAll _, List.Pairwise.nil, nofun, nofun, nofun⟩

/-! ### Requests -/

theorem Sound.markDirty (sound : s.Sound) (span : Span) : (s.markDirty span).Sound :=
  ⟨sound.normal.insert span, sound.numbered, sound.issued, sound.dated, sound.nonempty⟩

theorem mem_unpromised {span : Span} :
    o ∈ s.unpromised span ↔ o ∈ span ∧ ∀ j ∈ s.liveJobs, o ∉ j.span := by
  simp [unpromised, mem_promised]

theorem normal_request (normal : s.dirty.Normal) (spans : List Span) :
    (s.request spans).dirty.Normal := by
  have keeps : ∀ d : SpanSet, d.Normal →
      (spans.foldl (fun d span => d.insertAll (s.unpromised span).spans) d).Normal := by
    induction spans with
    | nil => exact fun d normal => normal
    | cons span rest ih => exact fun d normal => ih _ (normal.insertAll _)
  exact keeps s.dirty normal

theorem Sound.request (sound : s.Sound) (spans : List Span) : (s.request spans).Sound :=
  ⟨normal_request sound.normal spans, sound.numbered, sound.issued, sound.dated, sound.nonempty⟩

/-- A request adds exactly what no live job has promised. -/
theorem mem_dirty_request {spans : List Span} :
    o ∈ (s.request spans).dirty ↔
      o ∈ s.dirty ∨ (∃ t ∈ spans, o ∈ t) ∧ ∀ j ∈ s.liveJobs, o ∉ j.span := by
  have added : ∀ d : SpanSet,
      o ∈ spans.foldl (fun d span => d.insertAll (s.unpromised span).spans) d ↔
        o ∈ d ∨ (∃ t ∈ spans, o ∈ t) ∧ ∀ j ∈ s.liveJobs, o ∉ j.span := by
    induction spans with
    | nil => simp
    | cons span rest ih =>
        intro d
        rw [List.foldl_cons, ih, SpanSet.mem_insertAll, ← SpanSet.mem_iff, mem_unpromised]
        simp only [List.mem_cons, exists_eq_or_imp]
        rw [or_and_right, or_left_comm, or_assoc, or_left_comm]
  exact added s.dirty

/-- A request takes what live jobs have promised as asked for already. -/
theorem owes_request {spans : List Span} :
    (s.request spans).Owes o ↔ s.Owes o ∨ ∃ t ∈ spans, o ∈ t := by
  have live : (s.request spans).liveJobs = s.liveJobs := rfl
  rw [Owes, Owes, mem_dirty_request, live]
  by_cases promised : ∃ j ∈ s.liveJobs, o ∈ j.span
  · simp only [promised, or_true, true_or]
  · have free : ∀ j ∈ s.liveJobs, o ∉ j.span := fun j hj mem => promised ⟨j, hj, mem⟩
    simp only [promised, or_false, and_iff_left free]

/-! ### Completion -/

/-- With jobs in order of their numbers, taking off the first of a number takes off all. -/
theorem eraseP_id_eq_filter {jobs : List Job} (numbered : jobs.Pairwise fun i j => i.id < j.id)
    (id : JobId) : jobs.eraseP (·.id == id) = jobs.filter (·.id != id) := by
  induction jobs with
  | nil => rfl
  | cons j rest ih =>
      obtain ⟨behind, rest'⟩ := List.pairwise_cons.mp numbered
      by_cases own : j.id = id
      · rw [List.eraseP_cons_of_pos (by simpa using own),
          List.filter_cons_of_neg (by simpa using own)]
        refine (List.filter_eq_self.mpr fun i hi => ?_).symm
        simp only [bne_iff_ne, ne_eq]
        exact fun same => Nat.ne_of_lt (behind i hi) (own.trans same.symm)
      · rw [List.eraseP_cons_of_neg (by simpa using own),
          List.filter_cons_of_pos (by simpa using own),
          ih rest']

/-- The scheduler without one job on its books. -/
def without (s : Scheduler) (id : JobId) : Scheduler :=
  { s with inFlight := s.inFlight.filter (·.id != id) }

theorem mem_inFlight_without {id : JobId} {j : Job} :
    j ∈ (s.without id).inFlight ↔ j ∈ s.inFlight ∧ j.id ≠ id := by
  simp [without]

theorem mem_liveJobs_without {id : JobId} {j : Job} :
    j ∈ (s.without id).liveJobs ↔ j ∈ s.liveJobs ∧ j.id ≠ id := by
  simp only [mem_liveJobs, mem_inFlight_without]
  exact and_right_comm

theorem Sound.without (sound : s.Sound) (id : JobId) : (s.without id).Sound :=
  ⟨sound.normal, sound.numbered.filter _, fun j hj => sound.issued j (List.mem_filter.mp hj).1,
    fun j hj => sound.dated j (List.mem_filter.mp hj).1,
    fun j hj => sound.nonempty j (List.mem_filter.mp hj).1⟩

/-- The number of a job is its own. -/
theorem Sound.eq_of_id_eq (sound : s.Sound) {i j : Job} (hi : i ∈ s.inFlight) (hj : j ∈ s.inFlight)
    (same : i.id = j.id) : i = j := by
  obtain ⟨m, hm, rfl⟩ := List.mem_iff_getElem.mp hi
  obtain ⟨n, hn, rfl⟩ := List.mem_iff_getElem.mp hj
  have ordered := List.pairwise_iff_getElem.mp sound.numbered
  rcases Nat.lt_trichotomy m n with before | rfl | behind
  · exact absurd same (Nat.ne_of_lt (ordered m n hm hn before))
  · rfl
  · exact absurd same.symm (Nat.ne_of_lt (ordered n m hn hm behind))

/-- What becomes of a job that is reported finished. -/
theorem complete_cases (sound : s.Sound) (id : JobId) :
    (s.complete id = (.unknown, s) ∧ ∀ j ∈ s.inFlight, j.id ≠ id) ∨
      (∃ job ∈ s.liveJobs, job.id = id ∧
        s.complete id = (.merge job, { s.without id with phase := .applying })) ∨
      (∃ job ∈ s.inFlight, job ∉ s.liveJobs ∧ job.id = id ∧
        s.complete id = (.stale job, (s.without id).settlePhase)) := by
  unfold complete
  cases found : s.inFlight.find? (·.id == id) with
  | none =>
      refine Or.inl ⟨rfl, fun j hj => ?_⟩
      simpa using List.find?_eq_none.mp found j hj
  | some job =>
      have mem := List.mem_of_find?_eq_some found
      have own : job.id = id := by simpa using List.find?_some found
      right
      simp only [eraseP_id_eq_filter sound.numbered]
      by_cases live : job ∈ s.liveJobs
      · obtain ⟨-, epoch, revision⟩ := mem_liveJobs.mp live
        refine Or.inl ⟨job, live, own, ?_⟩
        rw [if_pos (by simp [isLive, epoch, revision])]
        rfl
      · refine Or.inr ⟨job, mem, live, own, ?_⟩
        rw [if_neg]
        · rfl
        · intro current
          simp only [isLive, Bool.and_eq_true, beq_iff_eq] at current
          exact live (mem_liveJobs.mpr ⟨mem, current⟩)

theorem complete_eq_unknown_iff (sound : s.Sound) {id : JobId} :
    (s.complete id).1 = .unknown ↔ ∀ j ∈ s.inFlight, j.id ≠ id := by
  rcases complete_cases sound id with ⟨eq, absent⟩ | ⟨found, live, own, eq⟩ | ⟨found, mem, -, own, eq⟩
  · rw [eq]
    exact iff_of_true rfl absent
  · rw [eq]
    exact iff_of_false nofun fun absent => absent found (mem_liveJobs.mp live).1 own
  · rw [eq]
    exact iff_of_false nofun fun absent => absent found mem own

theorem complete_eq_merge_iff (sound : s.Sound) {id : JobId} {job : Job} :
    (s.complete id).1 = .merge job ↔ job.id = id ∧ job ∈ s.liveJobs := by
  have unique : ∀ i ∈ s.inFlight, ∀ j ∈ s.inFlight, i.id = id → j.id = id → i = j :=
    fun i hi j hj own own' => sound.eq_of_id_eq hi hj (own.trans own'.symm)
  rcases complete_cases sound id with
    ⟨eq, absent⟩ | ⟨found, live, own, eq⟩ | ⟨found, mem, notLive, own, eq⟩
  · rw [eq]
    exact iff_of_false nofun fun ⟨own, live⟩ => absent job (mem_liveJobs.mp live).1 own
  · rw [eq, Completion.merge.injEq]
    constructor
    · rintro rfl
      exact ⟨own, live⟩
    · rintro ⟨own', live'⟩
      exact unique found (mem_liveJobs.mp live).1 job (mem_liveJobs.mp live').1 own own'
  · rw [eq]
    refine iff_of_false nofun fun ⟨own', live⟩ => notLive ?_
    rwa [unique found mem job (mem_liveJobs.mp live).1 own own']

theorem complete_eq_stale_iff (sound : s.Sound) {id : JobId} {job : Job} :
    (s.complete id).1 = .stale job ↔ job.id = id ∧ job ∈ s.inFlight ∧ job ∉ s.liveJobs := by
  have unique : ∀ i ∈ s.inFlight, ∀ j ∈ s.inFlight, i.id = id → j.id = id → i = j :=
    fun i hi j hj own own' => sound.eq_of_id_eq hi hj (own.trans own'.symm)
  rcases complete_cases sound id with
    ⟨eq, absent⟩ | ⟨found, live, own, eq⟩ | ⟨found, mem, notLive, own, eq⟩
  · rw [eq]
    exact iff_of_false nofun fun ⟨own, mem, _⟩ => absent job mem own
  · rw [eq]
    refine iff_of_false nofun fun ⟨own', mem, notLive⟩ => notLive ?_
    rwa [← unique found (mem_liveJobs.mp live).1 job mem own own']
  · rw [eq, Completion.stale.injEq]
    constructor
    · rintro rfl
      exact ⟨own, mem, notLive⟩
    · rintro ⟨own', mem', -⟩
      exact unique found mem job mem' own own'

/-- Whatever it answers, a completion takes the job off the books and does no more to them. -/
theorem sameBooks_complete (sound : s.Sound) (id : JobId) :
    SameBooks (s.complete id).2 (s.without id) := by
  rcases complete_cases sound id with ⟨eq, absent⟩ | ⟨job, -, -, eq⟩ | ⟨job, -, -, -, eq⟩
  · rw [eq]
    have all : s.inFlight.filter (·.id != id) = s.inFlight :=
      List.filter_eq_self.mpr fun j hj => by simpa using absent j hj
    exact ⟨rfl, all.symm, rfl, rfl, rfl⟩
  · rw [eq]
    exact ⟨rfl, rfl, rfl, rfl, rfl⟩
  · rw [eq]
    exact sameBooks_settlePhase _

end Scheduler

end Highlighting
