import Highlighting.Proofs.Highlighter.Turns

/-!
Which results are merged.

A trace lists what happens to jobs in a run: the numbers that are given out, the results that are
merged, and the moments at which all earlier jobs are superseded. A result is told from a superseded
one by nothing but the epoch and the revision of its job, and by the number of the job, which is
never used again. `Recorded` ties the books to the trace: a job that is live was dispatched after
the last superseding event, and a number whose result was merged is on the books no more.
-/

namespace Highlighting

/-- What happens to jobs. -/
inductive JobEvent where
  /-- The number was given out to a job. -/
  | dispatched (id : JobId)
  /-- The runs of the answer were stored in the index of the highlighter and announced
  (`Highlighter.finish_told`). -/
  | merged (answer : Answer) (into : Highlighter)
  /-- The job was finished as soon as it was handed out, for lack of a tree. -/
  | finishedPlain (id : JobId)
  /-- Text, language or theme changed, the whole document was queued again, or all was released. -/
  | superseded

namespace JobEvent

/-- The number of the job that the event finishes. -/
def finishes? : JobEvent → Option JobId
  | .merged answer _ => some answer.request.job.id
  | .finishedPlain id => some id
  | .dispatched _ | .superseded => none

/-- The number of the job whose result was merged. -/
def mergedJob? : JobEvent → Option JobId
  | .merged answer _ => some answer.request.job.id
  | _ => none

/-- An answer to the request for the job is among those that were merged. -/
def Merges (events : List JobEvent) (job : Job) : Prop :=
  ∃ answer into, .merged answer into ∈ events ∧ answer.request.job = job

/-- The job was dispatched once, and nothing has superseded it since. -/
def Unsuperseded (past : List JobEvent) (id : JobId) : Prop :=
  ∃ front back, past = front ++ .dispatched id :: back ∧
    .dispatched id ∉ front ∧ .dispatched id ∉ back ∧ .superseded ∉ back

variable {past events : List JobEvent} {id : JobId}

theorem merges_append {job : Job} :
    Merges (past ++ events) job ↔ Merges past job ∨ Merges events job := by
  constructor
  · rintro ⟨answer, into, mem, own⟩
    exact (List.mem_append.mp mem).imp (⟨answer, into, ·, own⟩) (⟨answer, into, ·, own⟩)
  · rintro (⟨answer, into, mem, own⟩ | ⟨answer, into, mem, own⟩)
    · exact ⟨answer, into, List.mem_append_left _ mem, own⟩
    · exact ⟨answer, into, List.mem_append_right _ mem, own⟩

theorem Unsuperseded.append (current : Unsuperseded past id) (once : .dispatched id ∉ events)
    (keeps : .superseded ∉ events) : Unsuperseded (past ++ events) id := by
  obtain ⟨front, back, rfl, first, only, since⟩ := current
  refine ⟨front, back ++ events, by simp, first, ?_, ?_⟩
  · intro again
    exact (List.mem_append.mp again).elim only once
  · intro later
    exact (List.mem_append.mp later).elim since keeps

/-- A merge is justified by what came before it: its answer was computed from the tree and the rules
of the moment, and its job was not superseded since its dispatch and not finished before. -/
structure Justified (before : List JobEvent) (answer : Answer) (into : Highlighter) : Prop where
  computed : answer = answer.request.answer
  tree : answer.request.tree.snapshot = into.snapshot
  basis : into.basis? = some (answer.request.tree, answer.request.rules)
  rules : ∀ l, into.language = some l → l.rules = .make l.rules.grammar into.theme
  once : ∀ e ∈ before, e.finishes? ≠ some answer.request.job.id
  current : Unsuperseded before answer.request.job.id

def AllJustified (past : List JobEvent) : Prop :=
  ∀ before answer into after, past = before ++ .merged answer into :: after →
    Justified before answer into

theorem AllJustified.concat (all : AllJustified past) {e : JobEvent}
    (own : ∀ answer into, e = .merged answer into → Justified past answer into) :
    AllJustified (past ++ [e]) := by
  intro before answer into after eq
  rcases List.eq_nil_or_concat after with rfl | ⟨rest, last, rfl⟩
  · obtain ⟨same, last⟩ := List.append_inj' eq rfl
    cases last
    rw [← same]
    exact own answer into rfl
  · rw [List.concat_eq_append, ← List.cons_append, ← List.append_assoc] at eq
    exact all before answer into rest (List.append_inj' eq rfl).1

/-- Other events need no justification. -/
theorem AllJustified.append (all : AllJustified past)
    (quiet : ∀ answer into, .merged answer into ∉ events) : AllJustified (past ++ events) := by
  induction events generalizing past with
  | nil =>
      rw [List.append_nil]
      exact all
  | cons e rest ih =>
      have first : AllJustified (past ++ [e]) := by
        apply all.concat
        intro answer into eq
        exact absurd (eq ▸ List.mem_cons_self) (quiet answer into)
      have others := ih first fun answer into mem => quiet answer into (List.mem_cons_of_mem e mem)
      rwa [List.append_assoc] at others

end JobEvent

namespace Scheduler

/-- What a call may do to the jobs on the books: take some off, and dispatch new ones. If it
supersedes, it leaves none live but the new ones. -/
structure Onwards (s t : Scheduler) (supersedes : Bool) : Prop where
  lastJob : s.lastJob ≤ t.lastJob
  jobs : ∀ j ∈ t.inFlight, j ∈ s.inFlight ∨ s.lastJob < j.id
  live : ∀ j ∈ t.liveJobs, supersedes = false ∧ j ∈ s.liveJobs ∨ s.lastJob < j.id

variable {s t u : Scheduler}

theorem Onwards.trans {b c : Bool} (first : Onwards s t b) (second : Onwards t u c) :
    Onwards s u (b || c) where
  lastJob := Nat.le_trans first.lastJob second.lastJob
  jobs := fun j hj => (second.jobs j hj).elim (first.jobs j) fun new =>
    Or.inr (Nat.lt_of_le_of_lt first.lastJob new)
  live := by
    intro j hj
    rcases second.live j hj with ⟨keeps, old⟩ | new
    · rcases first.live j old with ⟨keeps', older⟩ | new
      · exact Or.inl ⟨by rw [keeps, keeps', Bool.or_false], older⟩
      · exact Or.inr new
    · exact Or.inr (Nat.lt_of_le_of_lt first.lastJob new)

theorem SameBooks.onwards (same : SameBooks t s) : Onwards s t false where
  lastJob := Nat.le_of_eq same.lastJob.symm
  jobs := fun _ hj => Or.inl (same.inFlight ▸ hj)
  live := fun _ hj => Or.inl ⟨rfl, same.liveJobs ▸ hj⟩

/-- Without a live job, all earlier ones are superseded. -/
theorem onwards_of_no_live (lastJob : t.lastJob = s.lastJob)
    (jobs : ∀ j ∈ t.inFlight, j ∈ s.inFlight) (none : t.liveJobs = []) (b : Bool) :
    Onwards s t b where
  lastJob := Nat.le_of_eq lastJob.symm
  jobs := fun j hj => Or.inl (jobs j hj)
  live := fun _ hj => absurd (none ▸ hj) List.not_mem_nil

theorem onwards_plan (sound : s.Sound) (size : Nat) : Onwards s (s.plan size).2 false := by
  have planned := planned sound.normal size
  have new : ∀ j ∈ (s.plan size).1.jobs, s.lastJob < j.id := fun j hj =>
    (planned.current j hj).2.2.1
  refine ⟨planned.lastJob, fun j hj => ?_, fun j hj => ?_⟩
  · rw [planned.inFlight] at hj
    exact (List.mem_append.mp hj).imp_right (new j)
  · rw [planned.liveJobs] at hj
    exact (List.mem_append.mp hj).imp (fun old => ⟨rfl, old⟩) (new j)

/-- The events of the numbers that were given out between two moments. -/
def handedOut (s t : Scheduler) : List JobEvent :=
  let ids := List.range' (s.lastJob + 1) (t.lastJob - s.lastJob)
  ids.map .dispatched ++
    (ids.filter fun id => t.inFlight.all fun j => j.id != id).map .finishedPlain

theorem mem_range'_iff {a b id : Nat} : id ∈ List.range' (a + 1) (b - a) ↔ a < id ∧ id ≤ b := by
  rw [List.mem_range'_1]
  omega

theorem mem_handedOut {e : JobEvent} : e ∈ handedOut s t ↔
    ∃ id, (s.lastJob < id ∧ id ≤ t.lastJob) ∧
      (e = .dispatched id ∨ (∀ j ∈ t.inFlight, j.id ≠ id) ∧ e = .finishedPlain id) := by
  simp only [handedOut, List.mem_append, List.mem_map, List.mem_filter, mem_range'_iff,
    List.all_eq_true, bne_iff_ne]
  constructor
  · rintro (⟨id, given, rfl⟩ | ⟨id, ⟨given, left⟩, rfl⟩)
    · exact ⟨id, given, Or.inl rfl⟩
    · exact ⟨id, given, Or.inr ⟨left, rfl⟩⟩
  · rintro ⟨id, given, rfl | ⟨left, rfl⟩⟩
    · exact Or.inl ⟨id, given, rfl⟩
    · exact Or.inr ⟨id, ⟨given, left⟩, rfl⟩

/-- A number that was given out was given out once. -/
theorem unsuperseded_handedOut {past : List JobEvent} {id : JobId}
    (given : s.lastJob < id ∧ id ≤ t.lastJob) (new : .dispatched id ∉ past) :
    JobEvent.Unsuperseded (past ++ handedOut s t) id := by
  have mem : id ∈ List.range' (s.lastJob + 1) (t.lastJob - s.lastJob) := mem_range'_iff.mpr given
  have distinct : (List.range' (s.lastJob + 1) (t.lastJob - s.lastJob)).Nodup := List.nodup_range'
  unfold handedOut
  dsimp only
  -- The numbers ascend without a gap, so the list has `id` once and everything splits around it.
  obtain ⟨earlier, later, eq⟩ := List.append_of_mem mem
  rw [eq] at distinct ⊢
  obtain ⟨-, tail, apart⟩ := List.nodup_append.mp distinct
  have split : ∀ plain : List JobEvent,
      past ++ ((earlier ++ id :: later).map JobEvent.dispatched ++ plain) =
        (past ++ earlier.map .dispatched) ++
          .dispatched id :: (later.map .dispatched ++ plain) := by
    intro plain
    rw [List.map_append, List.map_cons, List.append_assoc, List.append_assoc, List.cons_append]
  refine ⟨_, _, split _, ?_, ?_, ?_⟩
  · intro again
    rcases List.mem_append.mp again with before | among
    · exact new before
    · obtain ⟨other, before, same⟩ := List.mem_map.mp among
      cases same
      exact apart id before id List.mem_cons_self rfl
  · intro again
    rcases List.mem_append.mp again with among | plain
    · obtain ⟨other, behind, same⟩ := List.mem_map.mp among
      cases same
      exact (List.nodup_cons.mp tail).1 behind
    · obtain ⟨_, -, same⟩ := List.mem_map.mp plain
      cases same
  · intro superseded
    rcases List.mem_append.mp superseded with among | plain
    · obtain ⟨_, -, same⟩ := List.mem_map.mp among
      cases same
    · obtain ⟨_, -, same⟩ := List.mem_map.mp plain
      cases same

/-- How the books stand to the events of the past. -/
structure Recorded (s : Scheduler) (past : List JobEvent) : Prop where
  given : ∀ id, .dispatched id ∈ past → id ≤ s.lastJob
  finished : ∀ e ∈ past, ∀ id, e.finishes? = some id →
    id ≤ s.lastJob ∧ ∀ j ∈ s.inFlight, j.id ≠ id
  live : ∀ j ∈ s.liveJobs, JobEvent.Unsuperseded past j.id

variable {past : List JobEvent}

/-- Going on, all jobs that stay live are current, and the new ones are. -/
theorem Recorded.onwards {b : Bool} (recorded : s.Recorded past) (onwards : Onwards s t b)
    (sound : t.Sound) :
    t.Recorded (past ++ ((if b then [.superseded] else []) ++ handedOut s t)) := by
  rw [← List.append_assoc]
  have between : ∀ e ∈ (if b then [JobEvent.superseded] else []), e = .superseded := by
    intro e mem
    split at mem
    · exact List.mem_singleton.mp mem
    · cases mem
  constructor
  · intro id mem
    rcases List.mem_append.mp mem with old | new
    · rcases List.mem_append.mp old with older | mark
      · exact Nat.le_trans (recorded.given id older) onwards.lastJob
      · cases between _ mark
    · obtain ⟨_, range, same | ⟨-, same⟩⟩ := mem_handedOut.mp new
      · cases same
        exact range.2
      · cases same
  · intro e mem id finishes
    rcases List.mem_append.mp mem with old | new
    · rcases List.mem_append.mp old with older | mark
      · obtain ⟨given, gone⟩ := recorded.finished e older id finishes
        -- A number that has left does not come back: what is new has a greater number.
        refine ⟨Nat.le_trans given onwards.lastJob, fun j hj same => ?_⟩
        rcases onwards.jobs j hj with stayed | new
        · exact gone j stayed same
        · exact Nat.not_lt.mpr given (same ▸ new)
      · rw [between e mark] at finishes
        cases finishes
    · obtain ⟨_, range, rfl | ⟨gone, rfl⟩⟩ := mem_handedOut.mp new
      · cases finishes
      · cases finishes
        exact ⟨range.2, gone⟩
  · intro j hj
    rcases onwards.live j hj with ⟨keeps, stayed⟩ | new
    · rw [keeps]
      have current := recorded.live j stayed
      have given : j.id ≤ s.lastJob := by
        obtain ⟨front, back, rfl, -⟩ := current
        exact recorded.given j.id (List.mem_append_right _ List.mem_cons_self)
      rw [if_neg Bool.false_ne_true, List.append_nil]
      apply current.append
      · intro again
        obtain ⟨_, range, same | ⟨-, same⟩⟩ := mem_handedOut.mp again
        · cases same
          exact Nat.not_lt.mpr given range.1
        · cases same
      · intro later
        obtain ⟨_, -, same | ⟨-, same⟩⟩ := mem_handedOut.mp later
        · cases same
        · cases same
    · apply unsuperseded_handedOut ⟨new, sound.issued j (mem_liveJobs.mp hj).1⟩
      intro before
      rcases List.mem_append.mp before with older | mark
      · exact Nat.not_lt.mpr (recorded.given j.id older) new
      · cases between _ mark

theorem Recorded.of_sameBooks (recorded : s.Recorded past) (same : SameBooks t s) :
    t.Recorded past := by
  constructor
  · rw [same.lastJob]
    exact recorded.given
  · rw [same.lastJob, same.inFlight]
    exact recorded.finished
  · rw [same.liveJobs]
    exact recorded.live

/-- A job that leaves the books may be recorded as finished. -/
theorem Recorded.without {id : JobId} (recorded : s.Recorded past) {events : List JobEvent}
    (given : id ≤ s.lastJob)
    (own : ∀ e ∈ events, e.finishes? = some id) : (s.without id).Recorded (past ++ events) := by
  constructor
  · intro id' mem
    rcases List.mem_append.mp mem with old | new
    · exact recorded.given id' old
    · cases own _ new
  · intro e mem id' finishes
    rcases List.mem_append.mp mem with old | new
    · obtain ⟨given', gone⟩ := recorded.finished e old id' finishes
      exact ⟨given', fun j hj => gone j (mem_inFlight_without.mp hj).1⟩
    · rw [own e new, Option.some.injEq] at finishes
      rw [← finishes]
      exact ⟨given, fun j hj => (mem_inFlight_without.mp hj).2⟩
  · intro j hj
    apply (recorded.live j (mem_liveJobs_without.mp hj).1).append
    · intro mem
      cases own _ mem
    · intro mem
      cases own _ mem

end Scheduler

namespace Highlighter

variable {h h' : Highlighter} {engine : ParsingEngine}

open Scheduler

/-! ### The jobs of a call -/

theorem onwards_pump (sound : h.scheduler.Sound) (idle : h.parsePending = false) :
    Onwards h.scheduler h.pump.scheduler false := by
  have plan := onwards_plan sound h.snapshot.size
  cases basis : h.basis? with
  | none =>
      obtain ⟨scheduler, index, outbox, eq, books⟩ := pump_of_none sound idle basis
      rw [eq]
      have emptied : Onwards h.scheduler
          { (h.scheduler.plan h.snapshot.size).2 with inFlight := h.scheduler.inFlight } false := by
        refine ⟨plan.lastJob, fun j hj => Or.inl hj, fun j hj => plan.live j ?_⟩
        have planned := Scheduler.planned sound.normal h.snapshot.size
        obtain ⟨mem, current⟩ := mem_liveJobs.mp hj
        refine mem_liveJobs.mpr ⟨?_, current⟩
        rw [planned.inFlight]
        exact List.mem_append_left _ mem
      exact emptied.trans books.onwards
  | some basis' =>
      obtain ⟨scheduler, index, outbox, eq, books⟩ := pump_of_some idle basis
      obtain ⟨worker, deferred, sent, -⟩ := submit_eq { h with scheduler, index, outbox }
        ((h.scheduler.plan h.snapshot.size).1.jobs.map fun job => ⟨job, basis'.1, basis'.2⟩)
      rw [eq, sent]
      exact plan.trans books.onwards

theorem scheduler_upToDate (engine : ParsingEngine) (h : Highlighter) :
    (h.upToDate engine).scheduler.inFlight = h.scheduler.inFlight ∧
      (h.upToDate engine).scheduler.liveJobs = h.scheduler.liveJobs ∧
      (h.upToDate engine).scheduler.lastJob = h.scheduler.lastJob := by
  unfold upToDate parsed
  cases h.language with
  | none => exact ⟨rfl, rfl, rfl⟩
  | some l =>
      dsimp only
      split
      · exact ⟨rfl, rfl, rfl⟩
      · exact ⟨rfl, rfl, rfl⟩

theorem Prepared.onwards (prepared : h.Prepared) :
    Onwards h.scheduler (h.reconcile engine).scheduler false := by
  have balanced : (h.upToDate engine).Balanced := prepared.upToDate
  obtain ⟨inFlight, live, lastJob⟩ := scheduler_upToDate engine h
  rw [reconcile_eq prepared.attached]
  have parsed : Onwards h.scheduler (h.upToDate engine).scheduler false := by
    refine ⟨Nat.le_of_eq lastJob.symm, fun j hj => Or.inl ?_, fun j hj => Or.inl ⟨rfl, ?_⟩⟩
    · rwa [inFlight] at hj
    · rwa [live] at hj
  exact parsed.trans (onwards_pump balanced.ledger.sound balanced.parsePending_eq_false)

theorem SameJobs.onwards (same : SameJobs h' h) : Onwards h.scheduler h'.scheduler false := by
  constructor
  · exact Nat.le_of_eq same.lastJob.symm
  · intro j hj
    exact Or.inl (same.inFlight ▸ hj)
  · intro j hj
    exact Or.inl ⟨rfl, same.live ▸ hj⟩

/-- Whatever a call does, what it supersedes is live no more. -/
theorem Turn.onwards {c : HighlighterCall} {b : Bool} (turn : Turn engine h c b h')
    (balanced : h.Balanced) : Onwards h.scheduler h'.scheduler b := by
  cases turn with
  | quiet _ _ jobs => exact jobs.onwards
  | released balanced' detached lastJob =>
      have none := (balanced'.released detached).jobs
      apply onwards_of_no_live lastJob
      · rw [none]
        exact nofun
      · rw [liveJobs, none]
        rfl
  | @restarted _ _ x prepared restarted =>
      have ended := onwards_of_no_live restarted.lastJob restarted.jobs restarted.superseded b
      have resumed : Onwards x.scheduler (x.reconcile engine).scheduler false := prepared.onwards
      have onwards := ended.trans resumed
      rwa [Bool.or_false] at onwards
  | resumed prepared _ jobs => exact jobs.onwards.trans prepared.onwards
  | pumped balanced' _ _ jobs =>
      exact jobs.onwards.trans
        (onwards_pump balanced'.ledger.sound balanced'.parsePending_eq_false)
  | @followed snapshot edits x prepared followed =>
      have resumed : Onwards x.scheduler (x.reconcile engine).scheduler false := prepared.onwards
      obtain ⟨linedUp, rfl⟩ := followed
      obtain ⟨-, none⟩ := balanced.ledger.takeEdits edits
      obtain ⟨log, scheduler, index, eq, inFlight, lastJob, -⟩ := takeEdits_eq h edits
      have taken : Onwards h.scheduler (h.takeEdits edits).2.scheduler (!edits.isEmpty) := by
        cases edits with
        | nil => exact SameBooks.onwards ⟨rfl, rfl, rfl, rfl, rfl⟩
        | cons e rest =>
            have live := none linedUp (List.cons_ne_nil _ _)
            rw [eq] at live ⊢
            exact onwards_of_no_live lastJob (fun j hj => inFlight ▸ hj) live _
      have onwards := taken.trans resumed
      rwa [Bool.or_false] at onwards

/-! ### The events of a call -/

/-- The merges among some answers that are taken in order. -/
def deliver (h : Highlighter) : List Answer → List JobEvent
  | [] => []
  | a :: rest =>
    (if (h.finish a.request.job.id a.runs).1 then [.merged a h] else []) ++
      (h.finish a.request.job.id a.runs).2.deliver rest

/-- The merges of a call: those of what the worker has ready, then that of the oldest deferred
request. -/
def deliveries (h : Highlighter) : HighlighterCall → List JobEvent
  | .textDidChange _ _ | .poll =>
    h.withoutAnswers.deliver h.readyAnswers ++ match h.collectAnswers.2.deferred with
      | [] => []
      | r :: rest => deliver { h.collectAnswers.2 with deferred := rest } [r.answer]
  | _ => []

/-- What a call does to jobs, in order: it merges what is ready, may supersede all that is left, and
hands out new jobs. -/
def events (engine : ParsingEngine) (h : Highlighter) (c : HighlighterCall) : List JobEvent :=
  h.deliveries c ++ ((if h.supersedes c then [.superseded] else []) ++
    handedOut (h.delivered c).scheduler (h.call engine c).scheduler)

/-- What happens to jobs in a run. -/
def trace (engine : ParsingEngine) (h : Highlighter) : List HighlighterCall → List JobEvent
  | [] => []
  | c :: rest => h.events engine c ++ (h.call engine c).trace engine rest

theorem length_deliver (h : Highlighter) (answers : List Answer) :
    (h.deliver answers).length = (h.finishAll answers).1 := by
  induction answers generalizing h with
  | nil => rfl
  | cons a rest ih =>
      have head : (if (h.finish a.request.job.id a.runs).1 then
          [JobEvent.merged a h] else []).length =
          (h.finish a.request.job.id a.runs).1.toNat := by
        cases (h.finish a.request.job.id a.runs).1 with
        | false => rfl
        | true => rfl
      rw [deliver, List.length_append, head, ih]
      rfl

/-- The merges that are listed are those that a poll counts. -/
theorem length_deliveries (engine : ParsingEngine) (h : Highlighter) :
    (h.deliveries .poll).length = (h.poll engine).1 := by
  change _ = h.collectAnswers.1 + h.collectAnswers.2.runDeferred.1
  have ready : (h.withoutAnswers.deliver h.readyAnswers).length = h.collectAnswers.1 := by
    rw [length_deliver, collectAnswers_eq]
  unfold deliveries runDeferred
  rw [List.length_append, ready]
  congr 1
  cases h.collectAnswers.2.deferred with
  | nil => rfl
  | cons r rest => exact length_deliver _ _

/-- Where no merge is listed, nothing is stored or announced. -/
theorem collectResults_of_deliveries_eq_nil (none : h.deliveries .poll = []) :
    h.collectResults.2.index = h.index ∧ h.collectResults.2.outbox = h.outbox := by
  have uncounted : h.collectResults.1 = 0 := by
    have counted := length_deliveries (fun _ _ _ => ⟨[], []⟩) h
    rw [none] at counted
    exact counted.symm
  obtain ⟨scheduler, worker, deferred, eq⟩ := collectResults_of_none_merged uncounted
  rw [eq]
  exact ⟨rfl, rfl⟩

/-! ### What is known along a run -/

/-- The tree is that of the text, the rules are those of the theme, and the books agree with the
events of the past, in which every merge is justified. -/
structure Chronicle (h : Highlighter) (past : List JobEvent) : Prop where
  ledger : h.Ledger
  tree : ∀ t, h.tree? = some t → t.snapshot = h.snapshot
  rules : ∀ l, h.language = some l → l.rules = .make l.rules.grammar h.theme
  recorded : h.scheduler.Recorded past
  justified : JobEvent.AllJustified past

variable {past : List JobEvent}

/-- The tree and the rules of a request whose job is live are those of the moment. -/
theorem Chronicle.justified_merge (chronicle : h.Chronicle past) {a : Answer}
    (vouched : h.Vouched a.request) (answered : a = a.request.answer) {job : Job}
    (live : job ∈ h.scheduler.liveJobs) (own : job.id = a.request.job.id) :
    JobEvent.Justified past a h := by
  have mem := (mem_liveJobs.mp live).1
  have same := vouched.own job mem own
  rw [same] at live
  have basis := vouched.current live
  constructor
  · exact answered
  · apply chronicle.tree
    obtain ⟨l, language, held⟩ := Option.bind_eq_some_iff.mp basis
    obtain ⟨t, tree, both⟩ := Option.map_eq_some_iff.mp held
    obtain ⟨rfl, -⟩ := Prod.mk.inj both
    rw [tree?, language]
    exact tree
  · exact basis
  · exact chronicle.rules
  · intro e he finishes
    exact (chronicle.recorded.finished e he _ finishes).2 job mem own
  · exact chronicle.recorded.live _ live

theorem Chronicle.finish (chronicle : h.Chronicle past) {a : Answer}
    (vouched : h.Vouched a.request) (answered : a = a.request.answer) :
    (h.finish a.request.job.id a.runs).2.Chronicle
      (past ++ if (h.finish a.request.job.id a.runs).1 then [.merged a h] else []) := by
  have ledger := chronicle.ledger.finish a.request.job.id a.runs
  have same := sameSetting_finish h a.request.job.id a.runs
  obtain ⟨scheduler, index, outbox, eq, books, merges⟩ :=
    finish_eq chronicle.ledger.sound a.request.job.id a.runs
  constructor
  · exact ledger
  · rw [same.tree?, same.snapshot]
    exact chronicle.tree
  · rw [same.language, same.theme]
    exact chronicle.rules
  · rw [eq]
    apply Recorded.of_sameBooks _ books
    apply chronicle.recorded.without vouched.issued
    intro e he
    split at he
    · rw [List.mem_singleton.mp he]
      rfl
    · cases he
  · rcases merges with ⟨job, live, own, -, merged⟩ | ⟨-, -, dropped⟩
    · rw [merged, if_pos rfl]
      apply chronicle.justified.concat
      intro answer into same
      cases same
      exact chronicle.justified_merge vouched answered live own
    · rw [dropped, if_neg Bool.false_ne_true, List.append_nil]
      exact chronicle.justified

theorem Chronicle.deliver (chronicle : h.Chronicle past) {answers : List Answer}
    (vouched : ∀ a ∈ answers, h.Vouched a.request ∧ a = a.request.answer) :
    (h.finishAll answers).2.Chronicle (past ++ h.deliver answers) := by
  induction answers generalizing h past with
  | nil =>
      rw [Highlighter.deliver, List.append_nil]
      exact chronicle
  | cons a rest ih =>
      obtain ⟨⟨own, answered⟩, others⟩ := List.forall_mem_cons.mp vouched
      rw [Highlighter.deliver, ← List.append_assoc]
      apply ih (chronicle.finish own answered)
      intro b hb
      exact ⟨(others b hb).1.finish chronicle.ledger.sound _ _, (others b hb).2⟩

/-- Taking requests and answers from the queues happens to no job. -/
theorem Chronicle.of_queues (chronicle : h.Chronicle past) {worker : Option Worker}
    {deferred : List Request} (ledger : Ledger { h with worker, deferred }) :
    Chronicle { h with worker, deferred } past :=
  ⟨ledger, chronicle.tree, chronicle.rules, chronicle.recorded, chronicle.justified⟩

theorem Chronicle.collectResults (chronicle : h.Chronicle past) :
    h.collectResults.2.Chronicle (past ++ h.deliveries .poll) := by
  have collected := (chronicle.of_queues chronicle.ledger.withoutAnswers).deliver
    chronicle.ledger.vouched_readyAnswers
  change h.collectAnswers.2.runDeferred.2.Chronicle _
  unfold deliveries
  change Chronicle (h.withoutAnswers.finishAll h.readyAnswers).2 _ at collected
  rw [← collectAnswers_eq] at collected
  unfold runDeferred
  dsimp only
  rw [← List.append_assoc]
  cases waiting : h.collectAnswers.2.deferred with
  | nil =>
      rw [List.append_nil]
      exact collected
  | cons r rest =>
      apply (collected.of_queues (collected.ledger.of_deferred waiting)).deliver
      intro a ha
      rw [List.mem_singleton.mp ha]
      exact ⟨collected.ledger.vouched_deferred waiting, rfl⟩

theorem Chronicle.delivered (chronicle : h.Chronicle past) (c : HighlighterCall) :
    (h.delivered c).Chronicle (past ++ h.deliveries c) := by
  have nothing : h.Chronicle (past ++ []) := by
    rw [List.append_nil]
    exact chronicle
  cases c with
  | textDidChange snapshot edits => exact chronicle.collectResults
  | poll => exact chronicle.collectResults
  | _ => exact nothing

/-- A call keeps to the chronicle, if the text before it and the text after it are those of their
revisions. -/
theorem Chronicle.call (chronicle : h.Chronicle past) (balanced : h.Balanced)
    {textOf : Revision → Text} {c : HighlighterCall}
    (before : h.snapshot.text = textOf h.snapshot.revision)
    (after : (h.textAfter c).text = textOf (h.textAfter c).revision) :
    (h.call engine c).Chronicle (past ++ h.events engine c) := by
  have turn : Turn engine (h.delivered c) c (h.supersedes c) (h.call engine c) := balanced.turn c
  have balanced' := turn.balanced
  have collected := chronicle.delivered c
  obtain ⟨balanced₁, ⟨_, _, _, snapshot, _, _, _⟩⟩ := balanced.delivered c
  constructor
  · exact balanced'.ledger
  · intro t tree
    rcases turn.tree? tree with old | new
    · -- The tree of before is kept only if its revision is that of the text.
      have same := collected.tree t old
      rw [snapshot] at same
      cases attached : (h.call engine c).attached with
      | false =>
          rw [(balanced'.released attached).tree] at tree
          cases tree
      | true =>
          obtain ⟨l, language, held⟩ := Option.bind_eq_some_iff.mp tree
          obtain ⟨t', tree', revision, -⟩ := (balanced'.parsed attached).2 l language
          rw [held, Option.some.injEq] at tree'
          subst tree'
          rw [snapshot_call] at revision ⊢
          apply Snapshot.ext revision
          -- A revision identifies a text, so the tree of the old text is one of the new text.
          rw [after, ← revision, SyntaxTree.revision, same, before]
    · exact new
  · exact balanced'.rules
  · unfold events
    rw [← List.append_assoc]
    exact collected.recorded.onwards (turn.onwards balanced₁) balanced'.ledger.sound
  · unfold events
    rw [← List.append_assoc]
    apply collected.justified.append
    intro answer into mem
    rcases List.mem_append.mp mem with mark | new
    · split at mark
      · cases List.mem_singleton.mp mark
      · cases mark
    · obtain ⟨_, -, same | ⟨-, same⟩⟩ := mem_handedOut.mp new
      · cases same
      · cases same

theorem chronicle_make (snapshot : Snapshot) (theme : Theme) (config : HighlighterConfig) :
    (make snapshot theme config).Chronicle [] := by
  constructor
  · exact (balanced_make snapshot theme config).ledger
  · exact nofun
  · exact nofun
  · constructor
    · intro id mem
      cases mem
    · intro e mem
      cases mem
    · intro j mem
      cases (mem_liveJobs.mp mem).1
  · intro before answer into after eq
    obtain ⟨-, none⟩ := List.append_eq_nil_iff.mp eq.symm
    cases none

theorem Chronicle.trace (chronicle : h.Chronicle past) (balanced : h.Balanced)
    {textOf : Revision → Text} {calls : List HighlighterCall}
    (start : h.snapshot.text = textOf h.snapshot.revision)
    (identified : ∀ snapshot edits, .textDidChange snapshot edits ∈ calls →
      snapshot.text = textOf snapshot.revision) :
    JobEvent.AllJustified (past ++ h.trace engine calls) := by
  induction calls generalizing h past with
  | nil =>
      rw [Highlighter.trace, List.append_nil]
      exact chronicle.justified
  | cons c rest ih =>
      have after : (h.textAfter c).text = textOf (h.textAfter c).revision := by
        cases c with
        | textDidChange snapshot edits => exact identified snapshot edits List.mem_cons_self
        | _ => exact start
      rw [Highlighter.trace, ← List.append_assoc]
      apply ih (chronicle.call balanced start after) (balanced.turn c).balanced
      · rw [snapshot_call]
        exact after
      · intro snapshot edits mem
        exact identified snapshot edits (List.mem_cons_of_mem c mem)

/-- No stale result is merged. If a revision identifies one text, then whenever an answer is merged
it was computed from the tree of the current text under the current rules, no result for its job was
merged before, and its job was dispatched after the last call that recorded an edit, started over
from a text, changed the language or the theme, queued the whole document or detached. -/
theorem merges_are_current (engine : ParsingEngine) (snapshot : Snapshot) (theme : Theme)
    (config : HighlighterConfig) (calls : List HighlighterCall) (textOf : Revision → Text)
    (start : snapshot.text = textOf snapshot.revision)
    (identified : ∀ snapshot edits, .textDidChange snapshot edits ∈ calls →
      snapshot.text = textOf snapshot.revision)
    {before after : List JobEvent} {answer : Answer} {into : Highlighter}
    (eq : (make snapshot theme config).trace engine calls =
      before ++ .merged answer into :: after) :
    answer.runs = answer.request.tree.classify answer.request.rules answer.request.job.span ∧
      answer.request.tree.snapshot = into.snapshot ∧
      (∃ l, into.language = some l ∧ l.keeper.tree = some answer.request.tree ∧
        answer.request.rules = .make l.rules.grammar into.theme) ∧
      (∀ e ∈ before, e.finishes? ≠ some answer.request.job.id) ∧
      ∃ front back, before = front ++ .dispatched answer.request.job.id :: back ∧
        .dispatched answer.request.job.id ∉ front ∧ .dispatched answer.request.job.id ∉ back ∧
        .superseded ∉ back := by
  have all : JobEvent.AllJustified ((make snapshot theme config).trace engine calls) :=
    (chronicle_make snapshot theme config).trace (balanced_make snapshot theme config) start
      identified
  obtain ⟨computed, tree, basis, rules, once, current⟩ := all before answer into after eq
  refine ⟨congrArg Answer.runs computed, tree, ?_, once, current⟩
  obtain ⟨l, language, held⟩ := Option.bind_eq_some_iff.mp basis
  obtain ⟨t, own, both⟩ := Option.map_eq_some_iff.mp held
  obtain ⟨rfl, sameRules⟩ := Prod.mk.inj both
  refine ⟨l, language, own, ?_⟩
  rw [← sameRules]
  exact rules l language

/-- An edit supersedes the second job, which comes back stale; the result of the third is merged. -/
theorem merge_after_superseded_job :
    let engine : ParsingEngine := fun _ _ _ => ⟨[], []⟩
    let edit : Edit := ⟨1, ⟨2, 3⟩, .ofString "xy"⟩
    let calls : List HighlighterCall :=
      [.setLanguage (some ⟨"bare", 14, none, []⟩), .attach, .workerStep, .poll,
        .textDidChange ⟨1, .ofString "abxydefgh"⟩ [edit], .workerStep, .poll, .workerStep, .poll]
    ∃ before answer into after,
      (make ⟨0, .ofString "abcdefgh"⟩ .empty ⟨⟨0, 0, 4, 1⟩, 2, true⟩).trace engine calls =
        before ++ .merged answer into :: after ∧
      before.length = 6 ∧ answer.request.job.id = 3 ∧
      answer.request.tree.snapshot = into.snapshot ∧
      ∃ front back, before = front ++ .dispatched 3 :: back ∧ .superseded ∉ back := by
  intro engine edit calls
  have merges : ((make ⟨0, .ofString "abcdefgh"⟩ .empty ⟨⟨0, 0, 4, 1⟩, 2, true⟩).trace engine
      calls).map JobEvent.mergedJob? =
      [none, none, some 1, none, none, none] ++ some 3 :: [none] := by decide +kernel
  obtain ⟨before, rest, eq, first, others⟩ := List.map_eq_append_iff.mp merges
  obtain ⟨e, after, rfl, own, -⟩ := List.map_eq_cons_iff.mp others
  cases e with
  | merged answer into =>
      have id : answer.request.job.id = 3 := Option.some.inj own
      have length : before.length = 6 := by simpa using congrArg List.length first
      obtain ⟨-, tree, -, -, front, back, split, -, -, since⟩ := merges_are_current engine _ _ _
        calls (fun r => if r = 0 then .ofString "abcdefgh" else .ofString "abxydefgh") rfl
        (by simp [calls]) eq
      exact ⟨before, answer, into, after, eq, length, id, tree, front, back, id ▸ split, since⟩
  | dispatched id => cases own
  | finishedPlain id => cases own
  | superseded => cases own

end Highlighter

end Highlighting
