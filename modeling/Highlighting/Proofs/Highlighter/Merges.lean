import Highlighting.Proofs.Highlighter.Turns
import Highlighting.Proofs.Highlighter.Patches
import Highlighting.Proofs.Index.Replacement

/-!
No merge is refused.

A highlighter that is given runs that do not tile their span drops them and stores the span as
unclassified. Here is the same highlighter without that way out: it takes down every merge, and gives
up at the first one that the index refuses (`Highlighter.Strict`). It never gives up, and it does what
the highlighter does (`Highlighter.no_merge_is_refused`).

Spans that are planned are not empty, and classification tiles whatever span it is given, whatever
the captures are. What is left to see is that a result comes back under the span that it was computed
for. The books see to that: a job is found by its number, and the job of that number is the one that
was asked for (`Highlighter.Vouched`).
-/

namespace Highlighting

open StyleRun

/-- Runs that were handed to the index for a span. -/
structure Merge where
  span : Span
  runs : List StyleRun

namespace Highlighter

/-! ### The strict highlighter -/

/-- A program that takes down its merges and gives up at the first one that is refused. -/
abbrev Strict :=
  StateT (List Merge) (Except TilingError)

def mergeStrictly (h : Highlighter) (s : Span) (runs : List StyleRun) : Strict Highlighter := do
  modify (· ++ [⟨s, runs⟩])
  let index ← h.index.replace s runs
  return announce { h with index } runs

def finishStrictly (h : Highlighter) (id : JobId) (runs : List StyleRun) : Strict Highlighter :=
  match h.scheduler.complete id with
  | (.merge job, scheduler) => do
    let h ← mergeStrictly { h with scheduler } job.span runs
    return { h with scheduler := h.scheduler.finishApplying }
  | (.stale _, scheduler) => return { h with scheduler }
  | (.unknown, scheduler) => return { h with scheduler }

def runDeferredStrictly (h : Highlighter) : Strict Highlighter :=
  match h.deferred with
  | [] => return h
  | r :: rest => finishStrictly { h with deferred := rest } r.job.id r.answer.runs

def collectStrictly (h : Highlighter) : Strict Highlighter := do
  let h ← h.readyAnswers.foldlM (fun h a => h.finishStrictly a.request.job.id a.runs)
    h.withoutAnswers
  h.runDeferredStrictly

def classifyNowStrictly (h : Highlighter) (s : Span) : Strict Highlighter :=
  h.mergeStrictly s (h.classify s)

def dispatchStrictly (h : Highlighter) (jobs : List Job) : Strict Highlighter :=
  match h.basis? with
  | none => jobs.foldlM (fun h job => h.finishStrictly job.id [.unclassified job.span]) h
  | some (tree, rules) => return h.submit (jobs.map fun job => ⟨job, tree, rules⟩)

def pumpStrictly (h : Highlighter) : Strict Highlighter :=
  if h.parsePending then return h
  else
    let (plan, scheduler) := h.scheduler.plan h.snapshot.size
    let h := { h with scheduler }
    if plan.isEmpty then return h
    else do
      let h ← plan.inline.foldlM classifyNowStrictly h
      let h ← h.dispatchStrictly plan.jobs
      return { h with scheduler := h.scheduler.finishApplying }

def concludeStrictly (engine : ParsingEngine) : Ending × Highlighter → Strict Highlighter
  | (.done, h) => return h
  | (.pump, h) => h.pumpStrictly
  | (.reconcile, h) => if h.attached then (h.upToDate engine).pumpStrictly else return h

def deliverStrictly (h : Highlighter) : HighlighterCall → Strict Highlighter
  | .textDidChange _ _ | .poll => h.collectStrictly
  | _ => return h

/-- The highlighter after a call, unless a merge is refused. What a call changes between its merges
is what it changes in the highlighter that refuses none. -/
def callStrictly (engine : ParsingEngine) (h : Highlighter) (c : HighlighterCall) :
    Strict Highlighter := do
  let h ← h.deliverStrictly c
  concludeStrictly engine (h.changed c)

/-- The highlighter after some calls, unless a merge is refused. -/
def runStrictly (engine : ParsingEngine) (h : Highlighter) (calls : List HighlighterCall) :
    Strict Highlighter :=
  calls.foldlM (callStrictly engine) h

variable {h h' : Highlighter} {engine : ParsingEngine} {p : Strict Highlighter}

/-! ### Programs that succeed -/

/-- The program does not give up, ends with the highlighter, and takes down merges of runs that tile
their spans. -/
def Yields (p : Strict Highlighter) (h : Highlighter) : Prop :=
  ∀ past, ∃ merges, p.run past = .ok (h, past ++ merges) ∧
    ∀ m ∈ merges, m.span.start < m.span.stop ∧ Tiles m.span m.runs

theorem yields_pure (h : Highlighter) : Yields (pure h) h :=
  fun past => ⟨[], by rw [List.append_nil]; rfl, nofun⟩

theorem Yields.bind {f : Highlighter → Strict Highlighter} (first : Yields p h)
    (second : Yields (f h) h') : Yields (p >>= f) h' := by
  intro past
  obtain ⟨early, ran, tile⟩ := first past
  obtain ⟨late, ran', tile'⟩ := second (past ++ early)
  refine ⟨early ++ late, ?_, List.forall_mem_append.mpr ⟨tile, tile'⟩⟩
  rw [StateT.run_bind, ran, ← List.append_assoc]
  exact ran'

/-- A loop yields what it does without giving up if each round does, from a state that the rounds
keep in shape. -/
theorem yields_foldlM {α : Type} {P : Highlighter → Prop} {f : Highlighter → α → Strict Highlighter}
    {g : Highlighter → α → Highlighter} {l : List α}
    (step : ∀ a ∈ l, ∀ h, P h → Yields (f h a) (g h a) ∧ P (g h a)) (start : P h) :
    Yields (l.foldlM f h) (l.foldl g h) ∧ P (l.foldl g h) := by
  induction l generalizing h with
  | nil => exact ⟨yields_pure h, start⟩
  | cons a rest ih =>
      obtain ⟨first, others⟩ := List.forall_mem_cons.mp step
      obtain ⟨round, kept⟩ := first h start
      obtain ⟨further, kept'⟩ := ih others kept
      rw [List.foldlM_cons, List.foldl_cons]
      exact ⟨round.bind further, kept'⟩

/-! ### Merging -/

/-- It takes a tiling for a merge not to be refused. -/
theorem exists_mergeStrictly_iff {s : Span} {runs : List StyleRun} {past : List Merge} :
    (∃ r, (h.mergeStrictly s runs).run past = .ok r) ↔ Tiles s runs := by
  rw [← StyleIndex.exists_replace_iff (x := h.index)]
  unfold mergeStrictly
  cases h.index.replace s runs with
  | error fault => exact iff_of_false (by rintro ⟨r, ok⟩; cases ok) (by rintro ⟨y, ok⟩; cases ok)
  | ok index => exact iff_of_true ⟨_, rfl⟩ ⟨_, rfl⟩

theorem yields_merge {s : Span} {runs : List StyleRun} (nonempty : s.start < s.stop)
    (tiles : checkTiling s.start s.stop runs = .ok ()) :
    Yields (h.mergeStrictly s runs) (h.merge s runs) := by
  intro past
  refine ⟨[⟨s, runs⟩], ?_, List.forall_mem_singleton.mpr ⟨nonempty, checkTiling_eq_ok_iff.mp tiles⟩⟩
  unfold mergeStrictly merge
  rw [StyleIndex.replace_of_tiling tiles]
  rfl

/-- A result is merged under the span of its job if it tiles that. -/
theorem yields_finish (sound : h.scheduler.Sound) {id : JobId} {runs : List StyleRun}
    (right : ∀ job ∈ h.scheduler.liveJobs, job.id = id →
      checkTiling job.span.start job.span.stop runs = .ok ()) :
    Yields (h.finishStrictly id runs) (h.finish id runs).2 := by
  unfold finishStrictly finish
  rcases Scheduler.complete_cases sound id with
    ⟨eq, -⟩ | ⟨job, live, own, eq⟩ | ⟨job, -, -, -, eq⟩
  · rw [eq]
    exact yields_pure _
  · rw [eq]
    have nonempty := sound.nonempty job (Scheduler.mem_liveJobs.mp live).1
    exact (yields_merge nonempty (right job live own)).bind (yields_pure _)
  · rw [eq]
    exact yields_pure _

/-- The answer to a request that the books vouch for tiles the span of its job. -/
theorem Ledger.yields_answer (ledger : h.Ledger) {a : Answer} (vouched : h.Vouched a.request)
    (answered : a = a.request.answer) :
    Yields (h.finishStrictly a.request.job.id a.runs) (h.finish a.request.job.id a.runs).2 := by
  apply yields_finish ledger.sound
  intro job live own
  have mem := (Scheduler.mem_liveJobs.mp live).1
  have nonempty := ledger.sound.nonempty job mem
  have same := vouched.own job mem own
  rw [same] at nonempty
  rw [congrArg Answer.runs answered, same]
  exact SyntaxTree.checkTiling_classify nonempty

theorem finishAll_eq_foldl (h : Highlighter) (answers : List Answer) :
    (h.finishAll answers).2 =
      answers.foldl (fun h a => (h.finish a.request.job.id a.runs).2) h := by
  induction answers generalizing h with
  | nil => rfl
  | cons a rest ih => exact ih _

theorem Ledger.yields_runDeferred (ledger : h.Ledger) :
    Yields h.runDeferredStrictly h.runDeferred.2 := by
  unfold runDeferredStrictly runDeferred
  cases waiting : h.deferred with
  | nil => exact yields_pure h
  | cons r rest =>
      have taken := ledger.of_deferred waiting
      exact taken.yields_answer (a := r.answer) (ledger.vouched_deferred waiting) rfl

theorem Ledger.yields_collect (ledger : h.Ledger) :
    Yields h.collectStrictly h.collectResults.2 := by
  have ready := ledger.vouched_readyAnswers
  obtain ⟨answered, kept, -⟩ := yields_foldlM
    (P := fun x => x.Ledger ∧ ∀ a ∈ h.readyAnswers, x.Vouched a.request)
    (f := fun x a => x.finishStrictly a.request.job.id a.runs)
    (g := fun x a => (x.finish a.request.job.id a.runs).2)
    (fun a ha x ⟨ledger, vouched⟩ => ⟨ledger.yields_answer (vouched a ha) (ready a ha).2,
      ledger.finish _ _, fun b hb => (vouched b hb).finish ledger.sound _ _⟩)
    ⟨ledger.withoutAnswers, fun a ha => (ready a ha).1⟩
  rw [← finishAll_eq_foldl, ← collectAnswers_eq] at answered kept
  exact answered.bind kept.yields_runDeferred

/-! ### Handing out work -/

theorem yields_dispatch (sound : h.scheduler.Sound) {jobs : List Job}
    (issued : ∀ j ∈ jobs, j ∈ h.scheduler.inFlight) :
    Yields (h.dispatchStrictly jobs) (h.dispatch jobs) := by
  unfold dispatchStrictly dispatch
  cases h.basis? with
  | some basis => exact yields_pure _
  | none =>
      -- A job is the only one of its number, so what is tiled is the span of the job itself.
      have own : ∀ job ∈ jobs, ∀ j ∈ h.scheduler.inFlight, j.id = job.id → j = job :=
        fun job hjob j hj same => sound.eq_of_id_eq hj (issued job hjob) same
      refine (yields_foldlM (P := fun x => x.scheduler.Sound ∧
        ∀ job ∈ jobs, ∀ j ∈ x.scheduler.inFlight, j.id = job.id → j = job)
        (fun job hjob x ⟨sound, own⟩ => ⟨?_, ?_⟩) ⟨sound, own⟩).1
      · refine yields_finish sound fun j live same => ?_
        have mem := (Scheduler.mem_liveJobs.mp live).1
        rw [← own job hjob j mem same]
        exact StyleIndex.checkTiling_cons.mpr
          ⟨rfl, sound.nonempty j mem, StyleIndex.checkTiling_nil.mpr rfl⟩
      · have books := sameBooks_finish sound job.id [.unclassified job.span]
        refine ⟨books.sound (sound.without job.id), fun k hk j hj => ?_⟩
        rw [finishPlain, books.inFlight] at hj
        exact own k hk j (Scheduler.mem_inFlight_without.mp hj).1

/-- Planned spans are not empty, so classification tiles them. -/
theorem yields_pump (sound : h.scheduler.Sound) : Yields h.pumpStrictly h.pump := by
  have planned := Scheduler.planned sound.normal h.snapshot.size
  unfold pumpStrictly pump
  split
  · exact yields_pure h
  · dsimp only
    split
    · exact yields_pure _
    · have inline := yields_foldlM (P := fun x => x.scheduler = (h.scheduler.plan h.snapshot.size).2)
        (h := { h with scheduler := (h.scheduler.plan h.snapshot.size).2 })
        (f := classifyNowStrictly) (g := classifyNow)
        (fun s hs x same => ⟨yields_merge (planned.inline.nonempty s hs)
          (x.checkTiling_classify (planned.inline.nonempty s hs)), ?_⟩) rfl
      · obtain ⟨classified, same⟩ := inline
        refine classified.bind (Yields.bind (yields_dispatch ?_ ?_) (yields_pure _))
        · rw [same]
          exact sound.plan _
        · rw [same, planned.inFlight]
          exact fun j hj => List.mem_append_right _ hj
      · obtain ⟨outbox, eq⟩ := merge_eq x s (x.classify s)
        rw [classifyNow, eq]
        exact same

/-! ### The calls -/

theorem yields_conclude {x : Ending × Highlighter} (sound : x.2.scheduler.Sound) :
    Yields (concludeStrictly engine x) (concluded engine x) := by
  obtain ⟨ending, x⟩ := x
  cases ending with
  | done => exact yields_pure x
  | pump => exact yields_pump sound
  | reconcile =>
      dsimp only [concludeStrictly, concluded]
      cases attached : x.attached with
      | true =>
          obtain ⟨language, log, phase, dirty, eq, sound', -⟩ := upToDate_eq engine x
          rw [reconcile_eq attached, if_pos rfl]
          refine yields_pump ?_
          rw [eq]
          exact sound' sound
      | false =>
          rw [reconcile_of_detached attached]
          exact yields_pure x

/-- What a call changes leaves the books in order. -/
theorem Ledger.sound_changed (ledger : h.Ledger) (c : HighlighterCall) :
    (h.changed c).2.scheduler.Sound := by
  have sound := ledger.sound
  have dropped : ∀ language, (h.withLanguage language).scheduler.Sound := by
    intro language
    obtain ⟨notices, eq⟩ := withLanguage_eq h language
    rw [eq]
    exact Scheduler.sound_reset _ _
  cases c with
  | attach =>
      dsimp only [changed]
      split
      · exact sound
      · exact sound_queueAll sound
  | detach =>
      dsimp only [changed, detach]
      split
      · exact Scheduler.sound_reset _ _
      · exact sound
  | setLanguage source => exact sound_queueAll (dropped _)
  | setLanguageFrom registry name => exact sound_queueAll (dropped _)
  | setTheme theme => exact sound_requeue (h := h.withTheme theme) sound none
  | setVisible visible => exact sound.setVisible _
  | textDidChange snapshot edits =>
      have taken := (ledger.takeEdits edits).1.sound
      dsimp only [changed, follow]
      split
      · obtain ⟨notices, eq⟩ := restart_eq { (h.takeEdits edits).2 with snapshot }
        rw [eq]
        exact sound_queueAll (Scheduler.sound_reset _ _)
      · exact taken
  | invalidate span => exact sound_requeue sound span
  | poll | workerStep | subscribe | unsubscribe | collect => exact sound

/-- A call between whose merges the books agree is not stopped by any of them. -/
theorem Balanced.yields_call (balanced : h.Balanced) (c : HighlighterCall) :
    Yields (h.callStrictly engine c) (h.call engine c) := by
  have ready : Yields (h.deliverStrictly c) (h.delivered c) := by
    cases c with
    | textDidChange snapshot edits => exact balanced.ledger.yields_collect
    | poll => exact balanced.ledger.yields_collect
    | _ => exact yields_pure h
  rw [call_eq]
  exact ready.bind (yields_conclude ((balanced.delivered c).1.ledger.sound_changed c))

theorem Balanced.yields_run (balanced : h.Balanced) (calls : List HighlighterCall) :
    Yields (h.runStrictly engine calls) (h.run engine calls) :=
  (yields_foldlM (P := Balanced) (fun c _ _ balanced =>
    ⟨balanced.yields_call c, (balanced.turn c).balanced⟩) balanced).1

/-- No merge is refused: along every run of calls, whatever the trees and their captures are, the
highlighter that gives up at the first refused merge does not give up, and it goes where the
highlighter goes. What is merged tiles a span that is not empty, as does what the rules make of any
other captures for that span. -/
theorem no_merge_is_refused (engine : ParsingEngine) (snapshot : Snapshot) (theme : Theme)
    (config : HighlighterConfig) (calls : List HighlighterCall) :
    let h := make snapshot theme config
    ∃ merges, (h.runStrictly engine calls).run [] = .ok (h.run engine calls, merges) ∧
      ∀ m ∈ merges, m.span.start < m.span.stop ∧ Tiles m.span m.runs ∧
        ∀ (rules : Rules) (captures : List Capture),
          Tiles m.span (rules.classify captures m.span) := by
  intro h
  obtain ⟨merges, ran, tile⟩ := (balanced_make snapshot theme config).yields_run calls []
  refine ⟨merges, ran, fun m hm => ?_⟩
  obtain ⟨nonempty, tiles⟩ := tile m hm
  exact ⟨nonempty, tiles, fun rules captures =>
    checkTiling_eq_ok_iff.mp (Rules.checkTiling_classify nonempty)⟩

/-- Without a language a text of three bytes is one merge. -/
example (engine : ParsingEngine) (theme : Theme) :
    (((make ⟨1, .ofString "abc"⟩ theme ⟨⟨8, 8, 8, 1⟩, 1, false⟩).runStrictly engine [.attach]).run
      []).map Prod.snd = .ok [⟨⟨0, 3⟩, [.unclassified ⟨0, 3⟩]⟩] :=
  rfl

end Highlighter

end Highlighting
