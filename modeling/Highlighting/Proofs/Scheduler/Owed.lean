import Highlighting.Proofs.Scheduler.Plan
import Mathlib.Data.List.Pairwise
import Mathlib.Data.Set.Basic

/-!
The bytes that a scheduler owes.

Beside every run of a scheduler goes the set of the bytes it owes: requests add to it, bytes that
are handed over at once or whose result is merged leave it, an edit carries it, a new epoch makes it
the whole document and a reset empties it. A result that comes too late does not change it.

`Accounts` says that the waiting bytes and the spans of the live jobs are a partition of the owed
bytes. Every call keeps it, so it holds along every run: no byte is lost, and none is worked on
twice.
-/

namespace Highlighting

/-- The calls on a scheduler. -/
inductive SchedulerCall where
  | setVisible (visible : Option Span)
  | beginReparse
  | noteEdit (e : Edit)
  | markDirty (span : Span)
  | request (spans : List Span)
  | plan (size : Nat)
  | complete (id : JobId)
  | finishApplying
  | invalidateAll (size : Nat)
  | reset (revision : Revision)
  | requeueInFlight

namespace SpanSet

/-- What becomes of a set of bytes when the span set that holds them is spliced. -/
def spliceBytes (bytes : Set Nat) (e : Splice) : Set Nat :=
  {o | ∃ d : SpanSet, d.Normal ∧ d.bytes = bytes ∧ o ∈ d.splice e}

end SpanSet

namespace Scheduler

/-- The scheduler after a call. -/
def call (s : Scheduler) : SchedulerCall → Scheduler
  | .setVisible visible => s.setVisible visible
  | .beginReparse => s.beginReparse
  | .noteEdit e => s.noteEdit e
  | .markDirty span => s.markDirty span
  | .request spans => s.request spans
  | .plan size => (s.plan size).2
  | .complete id => (s.complete id).2
  | .finishApplying => s.finishApplying
  | .invalidateAll size => s.invalidateAll size
  | .reset revision => s.reset revision
  | .requeueInFlight => s.requeueInFlight

/-- What callers promise: edits are upright and move the revision on, and no live job is outstanding
when bytes are marked. -/
def Allows (s : Scheduler) : SchedulerCall → Prop
  | .noteEdit e => e.span.start ≤ e.span.stop ∧ s.revision < e.revision
  | .markDirty _ => s.liveJobs = []
  | _ => True

/-- The bytes owed after a call, from those owed before it. -/
def owedAfter (s : Scheduler) (owed : Set Nat) : SchedulerCall → Set Nat
  | .noteEdit e => SpanSet.spliceBytes owed e.splice
  | .markDirty span => {o | o ∈ owed ∨ o ∈ span}
  | .request spans => {o | o ∈ owed ∨ ∃ t ∈ spans, o ∈ t}
  | .plan size =>
    {o | o ∈ owed ∧ (∀ t ∈ (s.plan size).1.inline, o ∉ t) ∧ ¬(o ∈ s.dirty ∧ size ≤ o)}
  | .complete id => match (s.complete id).1 with
    | .merge job => {o | o ∈ owed ∧ o ∉ job.span}
    | .stale _ | .unknown => owed
  | .invalidateAll size => {o | o < size}
  | .reset _ => ∅
  | .setVisible _ | .beginReparse | .finishApplying | .requeueInFlight => owed

/-- The runs of a scheduler, each with the bytes owed at its end. -/
inductive OwedRun (config : SchedulerConfig) (revision : Revision) :
    Scheduler → Set Nat → Prop where
  | start : OwedRun config revision (start config revision) ∅
  | call {s : Scheduler} {owed : Set Nat} (c : SchedulerCall) :
      OwedRun config revision s owed → s.Allows c →
      OwedRun config revision (s.call c) (s.owedAfter owed c)

/-- The waiting bytes and the spans of live jobs are a partition of the owed bytes. -/
structure Accounts (s : Scheduler) (owed : Set Nat) : Prop where
  sound : s.Sound
  disjoint : s.liveJobs.Pairwise fun i j => ∀ o ∈ i.span, o ∉ j.span
  apart : ∀ j ∈ s.liveJobs, ∀ o ∈ j.span, o ∉ s.dirty
  mem_owed : ∀ o, o ∈ owed ↔ s.Owes o

variable {s t : Scheduler} {owed : Set Nat}

/-! ### What each call keeps -/

theorem accounts_of_no_live (sound : s.Sound) (none : s.liveJobs = [])
    (mem : ∀ o, o ∈ owed ↔ o ∈ s.dirty) : s.Accounts owed where
  sound := sound
  disjoint := by
    rw [none]
    exact List.Pairwise.nil
  apart := by
    rw [none]
    exact nofun
  mem_owed := fun o => by
    rw [mem o, Owes, none]
    simp

theorem Accounts.of_sameBooks (accounts : s.Accounts owed) (same : SameBooks t s) :
    t.Accounts owed := by
  refine ⟨same.sound accounts.sound, ?_, ?_, fun o => ?_⟩
  · rw [same.liveJobs]
    exact accounts.disjoint
  · rw [same.liveJobs, same.dirty]
    exact accounts.apart
  · rw [accounts.mem_owed o, same.owes_iff]

/-- An edit moves all that was promised back to the waiting bytes and carries it once. -/
theorem Accounts.noteEdit (accounts : s.Accounts owed) {e : Edit}
    (upright : e.span.start ≤ e.span.stop) (later : s.revision < e.revision) :
    (s.noteEdit e).Accounts (SpanSet.spliceBytes owed e.splice) := by
  refine accounts_of_no_live (accounts.sound.noteEdit later)
    (liveJobs_noteEdit accounts.sound later) fun o => ?_
  constructor
  · rintro ⟨d, normal, bytes, mem⟩
    -- A normal set is told by its bytes, so any such set is carried as the waiting one is.
    have same : ∀ b, b ∈ d ↔ s.Owes b := fun b => by
      rw [← accounts.mem_owed b, ← bytes, SpanSet.mem_bytes]
    rw [SpanSet.mem_splice upright normal.nonempty] at mem
    rw [mem_dirty_noteEdit accounts.sound upright]
    simp only [same] at mem
    exact mem
  · intro mem
    refine ⟨s.dirty.insertAll s.promised, accounts.sound.normal.insertAll _, ?_, mem⟩
    ext b
    rw [SpanSet.mem_bytes, accounts.mem_owed b, owes_iff]

theorem Accounts.markDirty (accounts : s.Accounts owed) (none : s.liveJobs = []) (span : Span) :
    (s.markDirty span).Accounts {o | o ∈ owed ∨ o ∈ span} := by
  apply accounts_of_no_live (accounts.sound.markDirty span) none
  intro o
  simp only [Set.mem_ofPred_eq, accounts.mem_owed o, Owes, none, Scheduler.markDirty,
    SpanSet.mem_insert, List.not_mem_nil, false_and, exists_false, or_false]
  exact or_comm

theorem Accounts.request (accounts : s.Accounts owed) (spans : List Span) :
    (s.request spans).Accounts {o | o ∈ owed ∨ ∃ t ∈ spans, o ∈ t} := by
  refine ⟨accounts.sound.request spans, accounts.disjoint, fun j hj o mem => ?_, fun o => ?_⟩
  · rw [mem_dirty_request]
    rintro (dirty | ⟨-, free⟩)
    · exact accounts.apart j hj o mem dirty
    · exact free j hj mem
  · rw [Set.mem_ofPred_eq, accounts.mem_owed o, owes_request]

/-- A plan moves waiting bytes into new jobs; only what it answers to be done at once and what lies
past the end of the document stops being owed. -/
theorem Accounts.plan (accounts : s.Accounts owed) (size : Nat) :
    (s.plan size).2.Accounts {o | o ∈ owed ∧ (∀ t ∈ (s.plan size).1.inline, o ∉ t) ∧
      ¬(o ∈ s.dirty ∧ size ≤ o)} := by
  have planned := planned accounts.sound.normal size
  have taken : ∀ j ∈ (s.plan size).1.jobs, ∀ o ∈ j.span,
      (o ∈ s.dirty ∧ o < size) ∧ ∀ c ∈ (s.plan size).1.inline, o ∉ c := by
    intro j hj o mem
    have left := planned.jobs.inside j.span (List.mem_map_of_mem hj) o mem
    rwa [SpanSet.mem_eraseAll, SpanSet.mem_truncate] at left
  refine ⟨accounts.sound.plan size, ?_, ?_, fun o => ?_⟩
  · rw [planned.liveJobs]
    refine List.pairwise_append.mpr
      ⟨accounts.disjoint, List.pairwise_map.mp planned.jobs.disjoint, fun i hi j hj o mem mem' => ?_⟩
    exact accounts.apart i hi o mem (taken j hj o mem').1.1
  · rw [planned.liveJobs]
    intro j hj o mem dirty
    have waits := (planned.jobs.mem_rest o).mp dirty
    rcases List.mem_append.mp hj with old | new
    · rw [SpanSet.mem_eraseAll, SpanSet.mem_truncate] at waits
      exact accounts.apart j old o mem waits.1.1.1
    · exact waits.2 j.span (List.mem_map_of_mem new) mem
  · rw [Set.mem_ofPred_eq, accounts.mem_owed o, Owes, Owes, planned.liveJobs]
    -- A waiting byte inside the text is done at once, goes into a new job or goes on waiting.
    have split := planned.mem_dirty (o := o)
    constructor
    · rintro ⟨dirty | ⟨j, hj, mem⟩, notInline, inside⟩
      · have below : o < size := Nat.lt_of_not_le fun past => inside ⟨dirty, past⟩
        rcases split.mp ⟨dirty, below⟩ with ⟨c, hc, mem⟩ | ⟨j, hj, mem⟩ | waits
        · exact absurd mem (notInline c hc)
        · exact Or.inr ⟨j, List.mem_append_right _ hj, mem⟩
        · exact Or.inl waits
      · exact Or.inr ⟨j, List.mem_append_left _ hj, mem⟩
    · rintro (waits | ⟨j, hj, mem⟩)
      · obtain ⟨dirty, below⟩ := split.mpr (Or.inr (Or.inr waits))
        have left := ((planned.jobs.mem_rest o).mp waits).1
        exact ⟨Or.inl dirty, (SpanSet.mem_eraseAll.mp left).2, fun past => by omega⟩
      · rcases List.mem_append.mp hj with old | new
        · have notDirty := accounts.apart j old o mem
          refine ⟨Or.inr ⟨j, old, mem⟩, fun c hc inside => ?_, fun past => notDirty past.1⟩
          exact notDirty (split.mpr (Or.inl ⟨c, hc, inside⟩)).1
        · obtain ⟨⟨dirty, below⟩, notInline⟩ := taken j new o mem
          exact ⟨Or.inl dirty, notInline, fun past => by omega⟩

theorem Accounts.disjoint_of_ne (accounts : s.Accounts owed) {i j : Job} (hi : i ∈ s.liveJobs)
    (hj : j ∈ s.liveJobs) (other : i ≠ j) : ∀ o ∈ i.span, o ∉ j.span := by
  have symmetric : Std.Symm fun i j : Job => ∀ o ∈ i.span, o ∉ j.span :=
    ⟨fun _ _ apart o mem mem' => apart o mem' mem⟩
  exact accounts.disjoint.forall hi hj other

/-- Only a live job takes its bytes along when it finishes. -/
theorem Accounts.complete (accounts : s.Accounts owed) (id : JobId) :
    (s.complete id).2.Accounts (s.owedAfter owed (.complete id)) := by
  have disjoint : (s.without id).liveJobs.Pairwise fun i j => ∀ o ∈ i.span, o ∉ j.span := by
    refine accounts.disjoint.sublist ?_
    exact List.Sublist.filter _ List.filter_sublist
  have apart : ∀ j ∈ (s.without id).liveJobs, ∀ o ∈ j.span, o ∉ s.dirty :=
    fun j hj => accounts.apart j (mem_liveJobs_without.mp hj).1
  rcases complete_cases accounts.sound id with
    ⟨eq, -⟩ | ⟨job, hjob, own, eq⟩ | ⟨job, mem, notLive, own, eq⟩
  · rw [owedAfter, eq]
    exact accounts
  · rw [owedAfter, eq]
    have removed : (s.without id).Accounts {o | o ∈ owed ∧ o ∉ job.span} := by
      refine ⟨accounts.sound.without id, disjoint, apart, fun o => ?_⟩
      rw [Set.mem_ofPred_eq, accounts.mem_owed o]
      constructor
      · rintro ⟨dirty | ⟨j, hj, inside⟩, outside⟩
        · exact Or.inl dirty
        · refine Or.inr ⟨j, mem_liveJobs_without.mpr ⟨hj, fun same => ?_⟩, inside⟩
          have := accounts.sound.eq_of_id_eq (mem_liveJobs.mp hj).1 (mem_liveJobs.mp hjob).1
            (same.trans own.symm)
          exact outside (this ▸ inside)
      · rintro (dirty | ⟨j, hj, inside⟩)
        · exact ⟨Or.inl dirty, fun within => accounts.apart job hjob o within dirty⟩
        · obtain ⟨live, other⟩ := mem_liveJobs_without.mp hj
          refine ⟨Or.inr ⟨j, live, inside⟩, accounts.disjoint_of_ne live hjob ?_ o inside⟩
          rintro rfl
          exact other own
    exact removed.of_sameBooks ⟨rfl, rfl, rfl, rfl, rfl⟩
  · rw [owedAfter, eq]
    have removed : (s.without id).Accounts owed := by
      refine ⟨accounts.sound.without id, disjoint, apart, fun o => ?_⟩
      rw [accounts.mem_owed o]
      -- The job that leaves is not live, and only live jobs promise bytes.
      refine or_congr_right (exists_congr fun j => and_congr_left fun _ => ?_)
      rw [mem_liveJobs_without]
      refine (and_iff_left_of_imp fun live same => ?_).symm
      have := accounts.sound.eq_of_id_eq (mem_liveJobs.mp live).1 mem (same.trans own.symm)
      exact notLive (this ▸ live)
    exact removed.of_sameBooks ⟨rfl, rfl, rfl, rfl, rfl⟩

theorem Accounts.invalidateAll (accounts : s.Accounts owed) (size : Nat) :
    (s.invalidateAll size).Accounts {o | o < size} :=
  accounts_of_no_live (accounts.sound.invalidateAll size)
    (liveJobs_invalidateAll accounts.sound size) fun _ => mem_dirty_invalidateAll.symm

theorem accounts_reset (s : Scheduler) (revision : Revision) : (s.reset revision).Accounts ∅ :=
  accounts_of_no_live (sound_reset s revision) rfl fun _ => iff_of_false id SpanSet.not_mem_empty

theorem Accounts.requeueInFlight (accounts : s.Accounts owed) :
    s.requeueInFlight.Accounts owed :=
  accounts_of_no_live accounts.sound.requeueInFlight rfl fun o =>
    (accounts.mem_owed o).trans owes_iff

theorem accounts_call (accounts : s.Accounts owed) (c : SchedulerCall) (allowed : s.Allows c) :
    (s.call c).Accounts (s.owedAfter owed c) := by
  cases c with
  | setVisible visible => exact accounts.of_sameBooks (sameBooks_setVisible s visible)
  | beginReparse => exact accounts.of_sameBooks (sameBooks_beginReparse s)
  | noteEdit e => exact accounts.noteEdit allowed.1 allowed.2
  | markDirty span => exact accounts.markDirty allowed span
  | request spans => exact accounts.request spans
  | plan size => exact accounts.plan size
  | complete id => exact accounts.complete id
  | finishApplying => exact accounts.of_sameBooks ⟨rfl, rfl, rfl, rfl, rfl⟩
  | invalidateAll size => exact accounts.invalidateAll size
  | reset revision => exact accounts_reset s revision
  | requeueInFlight => exact accounts.requeueInFlight

/-! ### Along every run -/

theorem accounts_of_run {config : SchedulerConfig} {revision : Revision}
    (run : OwedRun config revision s owed) : s.Accounts owed := by
  induction run with
  | start =>
      exact accounts_of_no_live (sound_start config revision) rfl fun _ =>
        iff_of_false id SpanSet.not_mem_empty
  | call c _ allowed ih => exact accounts_call ih c allowed

/-- No work is lost and none is doubled: at any time the owed bytes are the disjoint union of the
waiting bytes and the spans of the live jobs. -/
theorem owed_is_disjoint_union {config : SchedulerConfig} {revision : Revision}
    (run : OwedRun config revision s owed) :
    (s.liveJobs.Pairwise fun i j => ∀ o ∈ i.span, o ∉ j.span) ∧
      (∀ j ∈ s.liveJobs, ∀ o ∈ j.span, o ∉ s.dirty) ∧
      ∀ o, o ∈ owed ↔ o ∈ s.dirty ∨ ∃ j ∈ s.liveJobs, o ∈ j.span :=
  have accounts := accounts_of_run run
  ⟨accounts.disjoint, accounts.apart, accounts.mem_owed⟩

/-- Two jobs are dispatched, an edit between them supersedes both, and once one of them has come
back stale its bytes are handed out again. -/
theorem owed_after_superseded_job :
    ∃ (s : Scheduler) (owed : Set Nat), OwedRun ⟨0, 0, 10, 2⟩ 0 s owed ∧
      s.liveJobs = [⟨3, 0, 1, ⟨0, 10⟩⟩] ∧ s.dirty = ⟨[⟨10, 26⟩]⟩ ∧
      (s.liveJobs.Pairwise fun i j => ∀ o ∈ i.span, o ∉ j.span) ∧
      (∀ j ∈ s.liveJobs, ∀ o ∈ j.span, o ∉ s.dirty) ∧
      ∀ o, o ∈ owed ↔ o ∈ s.dirty ∨ ∃ j ∈ s.liveJobs, o ∈ j.span := by
  have fresh : OwedRun ⟨0, 0, 10, 2⟩ 0 _ _ := OwedRun.start
  have asked := fresh.call (.request [⟨0, 25⟩]) trivial
  have dispatched := asked.call (.plan 25) trivial
  have edited := dispatched.call (.noteEdit ⟨1, ⟨12, 14⟩, .ofString "xyz"⟩) ⟨by decide, by decide⟩
  have run := (edited.call (.complete 1) trivial).call (.plan 26) trivial
  exact ⟨_, _, run, by decide, by decide, owed_is_disjoint_union run⟩

end Scheduler

end Highlighting
