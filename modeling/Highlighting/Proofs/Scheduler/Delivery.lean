import Highlighting.Proofs.Index.Canonical
import Highlighting.Proofs.Scheduler.Owed
import Mathlib.Data.List.Perm.Basic

/-!
Delivery of results.

The results of outstanding jobs may come back in any order. Each takes its job off the books, and if
the job is live its runs are stored over its span. The spans of live jobs have no byte in common, so
after some deliveries the index stores for a byte what the delivered live job over it has brought,
and what it stored before where there is none. That does not depend on the order, and neither do
the books; a canonical index is given by what it stores, so the seams between results are joined
alike in every order.
-/

namespace Highlighting

namespace Scheduler

open StyleRun

/-- Reports a job finished, and stores its runs if they are to be merged. -/
def deliver (runs : Job → List StyleRun) (before : Scheduler × StyleIndex) (job : Job) :
    Except TilingError (Scheduler × StyleIndex) :=
  match before.1.complete job.id with
  | (.merge job, s) => do
    let index ← before.2.replace job.span (runs job)
    return (s.finishApplying, index)
  | (.stale _, s) => return (s, before.2)
  | (.unknown, s) => return (s, before.2)

/-- Delivers the results of some jobs in order. -/
def deliverAll (runs : Job → List StyleRun) (s : Scheduler) (x : StyleIndex) (jobs : List Job) :
    Except TilingError (Scheduler × StyleIndex) :=
  jobs.foldlM (deliver runs) (s, x)

/-- The scheduler once the result of an outstanding job was dealt with, merged or not. -/
def retire (s : Scheduler) (job : Job) : Scheduler :=
  (s.without job.id).settlePhase

variable {s : Scheduler} {owed : Set Nat} {x : StyleIndex} {runs : Job → List StyleRun}
  {jobs : List Job}

theorem retire_comm (s : Scheduler) (i j : Job) :
    (s.retire i).retire j = (s.retire j).retire i := by
  have jobs : (s.inFlight.filter (·.id != i.id)).filter (·.id != j.id) =
      (s.inFlight.filter (·.id != j.id)).filter (·.id != i.id) := List.filter_comm _ _ _
  simp only [retire, without, settlePhase, jobs]
  rfl

instance : RightCommutative retire :=
  ⟨retire_comm⟩

theorem sameBooks_retire (s : Scheduler) (job : Job) :
    SameBooks (s.retire job) (s.without job.id) :=
  sameBooks_settlePhase _

theorem Accounts.retire (accounts : s.Accounts owed) (job : Job) :
    (s.retire job).Accounts (s.owedAfter owed (.complete job.id)) := by
  have same := sameBooks_complete accounts.sound job.id
  exact (accounts.complete job.id).of_sameBooks ((sameBooks_retire s job).trans same.symm)

/-! ### One delivery -/

/-- The result of an outstanding job leaves the books settled, and is stored if the job is live. -/
theorem deliver_eq (sound : s.Sound) (canonical : Canonical x.runs) {job : Job}
    (mem : job ∈ s.inFlight)
    (tiles : checkTiling job.span.start job.span.stop (runs job) = .ok ()) :
    ∃ y : StyleIndex, deliver runs (s, x) job = .ok (s.retire job, y) ∧ Canonical y.runs ∧
      ∀ o c, Holds y.runs o c ↔ (job ∈ s.liveJobs ∧ Holds (runs job) o c) ∨
        (Holds x.runs o c ∧ (job ∈ s.liveJobs → o ∉ job.span)) := by
  rcases complete_cases sound job.id with
    ⟨-, absent⟩ | ⟨found, live, own, eq⟩ | ⟨found, mem', notLive, own, eq⟩
  · exact absurd rfl (absent job mem)
  · cases sound.eq_of_id_eq (mem_liveJobs.mp live).1 mem own
    have stored : x.replace job.span (runs job) = .ok _ := StyleIndex.replace_of_tiling tiles
    refine ⟨_, ?_, StyleIndex.canonical_of_replace canonical stored, fun o c => ?_⟩
    · rw [deliver]
      simp only [eq, stored]
      rfl
    · simp only [StyleIndex.holds_of_replace stored, live, true_and, true_implies]
  · cases sound.eq_of_id_eq mem' mem own
    refine ⟨x, ?_, canonical, fun o c => ?_⟩
    · rw [deliver]
      simp only [eq]
      rfl
    · simp only [notLive, false_and, false_implies, and_true, false_or]

/-! ### All deliveries -/

/-- What the deliveries of some outstanding jobs leave. -/
theorem deliverAll_eq (accounts : s.Accounts owed) (canonical : Canonical x.runs)
    (distinct : jobs.Nodup) (outstanding : ∀ j ∈ jobs, j ∈ s.inFlight)
    (tiles : ∀ j ∈ jobs, checkTiling j.span.start j.span.stop (runs j) = .ok ()) :
    ∃ y : StyleIndex, deliverAll runs s x jobs = .ok (jobs.foldl retire s, y) ∧
      Canonical y.runs ∧
      ∀ o c, Holds y.runs o c ↔ (∃ j ∈ jobs, j ∈ s.liveJobs ∧ Holds (runs j) o c) ∨
        (Holds x.runs o c ∧ ∀ j ∈ jobs, j ∈ s.liveJobs → o ∉ j.span) := by
  induction jobs generalizing s owed x with
  | nil => exact ⟨x, rfl, canonical, fun o c => by simp⟩
  | cons job rest ih =>
      obtain ⟨new, distinct⟩ := List.nodup_cons.mp distinct
      obtain ⟨mem, others⟩ := List.forall_mem_cons.mp outstanding
      obtain ⟨own, tiles⟩ := List.forall_mem_cons.mp tiles
      obtain ⟨y, delivered, canonical, holds⟩ := deliver_eq accounts.sound canonical mem own
      have same := sameBooks_retire s job
      have other : ∀ j ∈ rest, j.id ≠ job.id := fun j hj eq =>
        new (accounts.sound.eq_of_id_eq (others j hj) mem eq ▸ hj)
      have stay : ∀ j ∈ rest, (j ∈ (s.retire job).liveJobs ↔ j ∈ s.liveJobs) := fun j hj => by
        rw [same.liveJobs, mem_liveJobs_without, and_iff_left (other j hj)]
      have others : ∀ j ∈ rest, j ∈ (s.retire job).inFlight := fun j hj => by
        rw [same.inFlight, mem_inFlight_without]
        exact ⟨others j hj, other j hj⟩
      obtain ⟨z, further, canonical, holds'⟩ :=
        ih (accounts.retire job) canonical distinct others tiles
      refine ⟨z, ?_, canonical, fun o c => ?_⟩
      · rw [deliverAll, List.foldlM_cons, delivered]
        exact further
      -- What the job has brought is not written over: no other live job has its bytes.
      have keeps : job ∈ s.liveJobs ∧ Holds (runs job) o c →
          ∀ j ∈ rest, j ∈ s.liveJobs → o ∉ j.span := by
        rintro ⟨live, held⟩ j hj live'
        refine accounts.disjoint_of_ne live live' (fun eq => new (eq ▸ hj)) o ?_
        exact StyleIndex.mem_of_holds own held
      have merged : (∃ j ∈ rest, j ∈ (s.retire job).liveJobs ∧ Holds (runs j) o c) ↔
          ∃ j ∈ rest, j ∈ s.liveJobs ∧ Holds (runs j) o c :=
        exists_congr fun j => and_congr_right fun hj => and_congr_left' (stay j hj)
      have free : (∀ j ∈ rest, j ∈ (s.retire job).liveJobs → o ∉ j.span) ↔
          ∀ j ∈ rest, j ∈ s.liveJobs → o ∉ j.span :=
        forall₂_congr fun j hj => imp_congr_left (stay j hj)
      rw [holds', merged, free, holds, or_and_right, and_iff_left_of_imp keeps, and_assoc,
        List.forall_mem_cons, List.exists_mem_cons_iff, or_left_comm, or_assoc]

/-- The order in which results come back does not matter: neither the index nor the books depend on
it. -/
theorem delivery_in_any_order {config : SchedulerConfig} {revision : Revision}
    (run : OwedRun config revision s owed) (canonical : Canonical x.runs) (distinct : jobs.Nodup)
    (outstanding : ∀ j ∈ jobs, j ∈ s.inFlight)
    (tiles : ∀ j ∈ jobs, checkTiling j.span.start j.span.stop (runs j) = .ok ())
    {jobs' : List Job} (order : jobs.Perm jobs') :
    ∃ (t : Scheduler) (y : StyleIndex), deliverAll runs s x jobs = .ok (t, y) ∧
      deliverAll runs s x jobs' = .ok (t, y) := by
  have accounts := accounts_of_run run
  obtain ⟨y, first, canonical₁, holds₁⟩ :=
    deliverAll_eq accounts canonical distinct outstanding tiles
  obtain ⟨z, second, canonical₂, holds₂⟩ :=
    deliverAll_eq accounts canonical (order.nodup_iff.mp distinct)
      (fun j hj => outstanding j (order.mem_iff.mpr hj))
      (fun j hj => tiles j (order.mem_iff.mpr hj))
  have books : jobs.foldl retire s = jobs'.foldl retire s := order.foldl_eq s
  have index : y.runs = z.runs := by
    refine canonical₁.eq_of_holds canonical₂ fun o c => ?_
    rw [holds₁, holds₂]
    simp only [order.mem_iff]
  have same : y = z := by
    cases y
    cases z
    exact congrArg StyleIndex.mk index
  refine ⟨_, y, first, ?_⟩
  rw [second, books, same]

/-- The first of the outstanding jobs is stale. The results of the other two touch each other and
the run behind them, and in either order all become one run. -/
theorem delivery_of_touching_results :
    ∃ (s : Scheduler) (owed : Set Nat) (t : Scheduler) (y : StyleIndex),
      OwedRun ⟨0, 0, 10, 3⟩ 0 s owed ∧
      s.inFlight = [⟨3, 0, 0, ⟨20, 30⟩⟩, ⟨4, 0, 1, ⟨0, 10⟩⟩, ⟨5, 0, 1, ⟨10, 20⟩⟩] ∧
      deliverAll (fun j => [⟨j.span, .styled 1⟩]) s ⟨[⟨⟨20, 25⟩, .styled 1⟩]⟩ s.inFlight =
        .ok (t, y) ∧
      deliverAll (fun j => [⟨j.span, .styled 1⟩]) s ⟨[⟨⟨20, 25⟩, .styled 1⟩]⟩ s.inFlight.reverse =
        .ok (t, y) ∧
      t.inFlight = [] ∧ y.runs = [⟨⟨0, 25⟩, .styled 1⟩] := by
  have fresh : OwedRun ⟨0, 0, 10, 3⟩ 0 _ _ := OwedRun.start
  have dispatched := (fresh.call (.request [⟨0, 30⟩]) trivial).call (.plan 30) trivial
  have edited := dispatched.call (.noteEdit ⟨1, ⟨0, 0⟩, .ofString "x"⟩) ⟨by decide, by decide⟩
  have returned := (edited.call (.complete 1) trivial).call (.complete 2) trivial
  have run : OwedRun ⟨0, 0, 10, 3⟩ 0 ⟨_, .querying, 0, 1, 5, ⟨[⟨20, 31⟩]⟩,
    [⟨3, 0, 0, ⟨20, 30⟩⟩, ⟨4, 0, 1, ⟨0, 10⟩⟩, ⟨5, 0, 1, ⟨10, 20⟩⟩], none⟩ _ :=
    returned.call (.plan 31) trivial
  have canonical : Canonical [⟨⟨20, 25⟩, .styled 1⟩] :=
    ⟨⟨by decide, by decide⟩, List.IsChain.singleton _⟩
  let runs : Job → List StyleRun := fun j => [⟨j.span, .styled 1⟩]
  have tiles : ∀ j ∈ [⟨3, 0, 0, ⟨20, 30⟩⟩, ⟨4, 0, 1, ⟨0, 10⟩⟩, ⟨5, 0, 1, ⟨10, 20⟩⟩],
      checkTiling j.span.start j.span.stop (runs j) = .ok () := by decide
  obtain ⟨t, y, first, second⟩ := delivery_in_any_order (x := ⟨_⟩) run canonical (by decide)
    (fun j hj => hj) tiles (List.reverse_perm _).symm
  have value : Except.ok (t, y) = Except.ok (_, ⟨[⟨⟨0, 25⟩, .styled 1⟩]⟩) := first.symm.trans rfl
  cases value
  exact ⟨_, _, _, _, run, rfl, first, second, rfl, rfl⟩

end Scheduler

end Highlighting
