import Highlighting.Proofs.Highlighter.Convergence
import Highlighting.Proofs.Highlighter.Supersession
import Highlighting.Proofs.Scheduler.Advance

/-!
What a change of the text costs.

An idle highlighter owes nothing. A change that is parsed along its edits makes it owe just three
kinds of bytes: those of the changed spans, those of the edited lines, and those that the index lost
to an edit, carried through the later ones (`Touched`). From then on owed bytes are only done, each
of them once (`Worked`). So when the highlighter is idle again, the spans that were classified on
the way tile the bytes that the change made it owe, and no other byte was written.
-/

namespace Highlighting

namespace StyleIndex

/-- One of the edits of a batch made the index answer a lost region, and the byte lies in that region
once it was carried through the edits behind. -/
def Loses : StyleIndex → List Edit → Nat → Prop
  | _, [], _ => False
  | x, e :: rest, o =>
    (∃ region, x.lost e.splice = some region ∧ o ∈ (SpanSet.ofList [region]).carry rest) ∨
      (x.apply e.splice).Loses rest o

/-- A byte reads what the byte that it comes from read before the batch, unless it was lost. -/
theorem styleAt_foldl_apply {x : StyleIndex} {edits : List Edit} {o p : Nat}
    (upright : ∀ e ∈ edits, e.span.start ≤ e.span.stop) (moved : preimageBefore? edits o = some p) :
    (edits.foldl (fun x e => x.apply e.splice) x).styleAt o = x.styleAt p ∨ x.Loses edits o := by
  induction edits generalizing x p with
  | nil =>
      cases moved
      exact Or.inl rfl
  | cons e rest ih =>
      obtain ⟨own, others⟩ := List.forall_mem_cons.mp upright
      obtain ⟨q, further, last⟩ := Option.bind_eq_some_iff.mp moved
      rcases ih (x := x.apply e.splice) others further with same | later
      · rcases styleAt_apply (x := x) own last with kept | ⟨region, gone, within⟩
        · exact Or.inl (same.trans kept)
        · have mem : q ∈ SpanSet.ofList [region] :=
            SpanSet.mem_ofList.mpr ⟨region, List.mem_singleton_self _, within⟩
          refine Or.inr (Or.inl ⟨region, gone, ?_⟩)
          exact SpanSet.mem_carry_of_preimage (SpanSet.normal_ofList _) others mem further
      · exact Or.inr (Or.inr later)

end StyleIndex

namespace Highlighter

variable {h h' h'' : Highlighter} {engine : ParsingEngine} {spans later : List Span} {o : Nat}
  {edits : List Edit}

/-- The spans that are classified at once when work is handed out. -/
def atOnce (h : Highlighter) : List Span :=
  (h.scheduler.plan h.snapshot.size).1.inline

/-- The highlighter once it took a batch of edits and the text that they lead to. -/
def following (h : Highlighter) (target : Snapshot) (edits : List Edit) : Highlighter :=
  { (h.takeEdits edits).2 with snapshot := target, parseDue := true }

/-- The spans that an attached highlighter classifies in a poll, or in a change that is in sync:
those of the live jobs whose results it takes in, which are those of the answers that are merged
(`Ledger.mem_finishedSpans_iff`), then those that it classifies at once. What the worker does for
requests that were abandoned is not among them: it is merged nowhere (`Ledger.finish_abandoned`). -/
def classified (engine : ParsingEngine) (h : Highlighter) : HighlighterCall → List Span
  | .textDidChange target edits =>
    Scheduler.finishedSpans h.scheduler h.collectResults.2.scheduler ++
      ((h.collectResults.2.following target edits).upToDate engine).atOnce
  | .poll =>
    Scheduler.finishedSpans h.scheduler h.collectResults.2.scheduler ++
      (h.collectResults.2.upToDate engine).atOnce
  | _ => []

/-- The spans that are classified along some calls. -/
def classifiedAlong (engine : ParsingEngine) : Highlighter → List HighlighterCall → List Span
  | _, [] => []
  | h, c :: rest => h.classified engine c ++ classifiedAlong engine (h.call engine c) rest

/-- The bytes of the new text that a batch of edits touches: those of the spans that the parse
answers as changed, those of the edited lines, and those that the index loses. -/
def Touched (index : StyleIndex) (changed : List Span) (target : Snapshot) (edits : List Edit)
    (o : Nat) : Prop :=
  o < target.size ∧ ((∃ s ∈ changed, o ∈ s) ∨
    (∃ s ∈ (editedSpans edits).spans, o ∈ target.text.expandToLines s) ∨ index.Loses edits o)

/-! ### Results that are taken in -/

theorem fewer_finishAll (sound : h.scheduler.Sound) (answers : List Answer) :
    (h.finishAll answers).2.scheduler.Sound ∧
      Scheduler.Fewer (h.finishAll answers).2.scheduler h.scheduler := by
  refine finishAll_keeps
    (P := fun x => x.scheduler.Sound ∧ Scheduler.Fewer x.scheduler h.scheduler) ?_ ?_
  · rintro a - x ⟨sound, fewer⟩
    have books := sameBooks_finish sound a.request.job.id a.runs
    exact ⟨books.sound (sound.without _), books.fewer.trans fewer⟩
  · exact ⟨sound, rfl, List.Sublist.refl _, rfl, rfl⟩

theorem Ledger.live_of_merges (ledger : h.Ledger) {answers : List Answer}
    (vouched : ∀ a ∈ answers, h.Vouched a.request) {job : Job}
    (merges : JobEvent.Merges (h.deliver answers) job) : job ∈ h.scheduler.liveJobs := by
  induction answers generalizing h with
  | nil =>
      obtain ⟨_, _, mem, -⟩ := merges
      cases mem
  | cons a rest ih =>
      obtain ⟨own, others⟩ := List.forall_mem_cons.mp vouched
      obtain ⟨answer, into, mem, rfl⟩ := merges
      rcases List.mem_append.mp mem with first | later
      · obtain ⟨_, -, ⟨job, live, same, told⟩ | ⟨-, told⟩⟩ :=
          finish_told ledger.sound a.request.job.id a.runs
        · rw [told] at first
          cases List.mem_singleton.mp first
          rwa [← own.own job (Scheduler.mem_liveJobs.mp live).1 same]
        · rw [told] at first
          cases first
      · have live := ih (ledger.finish _ _) (fun b hb => (others b hb).finish ledger.sound _ _)
          ⟨answer, into, later, rfl⟩
        rw [(sameBooks_finish ledger.sound _ _).liveJobs] at live
        exact (Scheduler.mem_liveJobs_without.mp live).1

/-- Those live jobs leave the books for which an answer is merged. -/
theorem Ledger.merges_iff (ledger : h.Ledger) {answers : List Answer}
    (vouched : ∀ a ∈ answers, h.Vouched a.request) {job : Job} :
    JobEvent.Merges (h.deliver answers) job ↔
      job ∈ h.scheduler.liveJobs ∧ job ∉ (h.finishAll answers).2.scheduler.inFlight := by
  refine (and_iff_right_of_imp (ledger.live_of_merges vouched)).symm.trans
    (and_congr_right fun live => ?_)
  induction answers generalizing h with
  | nil =>
      refine iff_of_false ?_ (not_not_intro (Scheduler.mem_liveJobs.mp live).1)
      rintro ⟨_, _, mem, -⟩
      cases mem
  | cons a rest ih =>
      obtain ⟨own, others⟩ := List.forall_mem_cons.mp vouched
      have ledger' := ledger.finish a.request.job.id a.runs
      have books := sameBooks_finish ledger.sound a.request.job.id a.runs
      obtain ⟨_, -, told⟩ := finish_told ledger.sound a.request.job.id a.runs
      by_cases same : job.id = a.request.job.id
      · -- The number is found among the live jobs, so this answer is merged.
        have merged : (h.finish a.request.job.id a.runs).1 = true := by
          rcases told with ⟨_, -, -, told⟩ | ⟨absent, -⟩
          · rw [told]
          · exact absurd same (absent job live)
        refine iff_of_true ⟨a, h, ?_, (own.own job (Scheduler.mem_liveJobs.mp live).1 same).symm⟩ ?_
        · rw [deliver, merged]
          exact List.mem_append_left _ (List.mem_singleton_self _)
        · intro still
          have here := (fewer_finishAll ledger'.sound rest).2.inFlight.subset still
          rw [books.inFlight] at here
          exact (Scheduler.mem_inFlight_without.mp here).2 same
      · have live' : job ∈ (h.finish a.request.job.id a.runs).2.scheduler.liveJobs := by
          rw [books.liveJobs]
          exact Scheduler.mem_liveJobs_without.mpr ⟨live, same⟩
        refine Iff.trans ?_ (ih ledger' (fun b hb => (others b hb).finish ledger.sound _ _) live')
        constructor
        · rintro ⟨answer, into, mem, rfl⟩
          refine ⟨answer, into, (List.mem_append.mp mem).resolve_left fun first => same ?_, rfl⟩
          split at first
          · cases List.mem_singleton.mp first
            rfl
          · cases first
        · rintro ⟨answer, into, mem, rfl⟩
          exact ⟨answer, into, List.mem_append_right _ mem, rfl⟩

/-- When results are collected, just those live jobs leave the books for which an answer is
merged. -/
theorem Ledger.merges_deliveries_iff (ledger : h.Ledger) {job : Job} :
    JobEvent.Merges (h.deliveries .poll) job ↔
      job ∈ h.scheduler.liveJobs ∧ job ∉ h.collectResults.2.scheduler.inFlight := by
  have ready := ledger.vouched_readyAnswers
  have collected : h.collectAnswers.2.Ledger := by
    rw [collectAnswers_eq]
    exact finishAll_keeps (fun a _ x kept => kept.finish _ _) ledger.withoutAnswers
  have fewer : Scheduler.Fewer h.collectAnswers.2.scheduler h.scheduler := by
    rw [collectAnswers_eq]
    exact (fewer_finishAll ledger.withoutAnswers.sound _).2
  have early : JobEvent.Merges (h.withoutAnswers.deliver h.readyAnswers) job ↔
      job ∈ h.scheduler.liveJobs ∧ job ∉ h.collectAnswers.2.scheduler.inFlight := by
    rw [collectAnswers_eq]
    exact ledger.withoutAnswers.merges_iff fun a ha => (ready a ha).1
  change _ ↔ _ ∧ job ∉ h.collectAnswers.2.runDeferred.2.scheduler.inFlight
  unfold deliveries runDeferred
  cases waiting : h.collectAnswers.2.deferred with
  | nil => simpa using early
  | cons r rest =>
      have taken := collected.of_deferred waiting
      have own : ∀ a ∈ [r.answer], Vouched { h.collectAnswers.2 with deferred := rest } a.request :=
        List.forall_mem_singleton.mpr (collected.vouched_deferred waiting)
      -- A job that leaves before the deferred request is run does not come back.
      have stays : job ∈ (finishAll { h.collectAnswers.2 with deferred := rest }
          [r.answer]).2.scheduler.inFlight → job ∈ h.collectAnswers.2.scheduler.inFlight :=
        fun still => (fewer_finishAll taken.sound _).2.inFlight.subset still
      rw [JobEvent.merges_append, early, taken.merges_iff own, fewer.mem_liveJobs]
      tauto

/-- The spans of the jobs that are finished when results are collected are those of the answers that
are merged then. -/
theorem Ledger.mem_finishedSpans_iff (ledger : h.Ledger) {s : Span} :
    s ∈ Scheduler.finishedSpans h.scheduler h.collectResults.2.scheduler ↔
      ∃ answer into, .merged answer into ∈ h.deliveries .poll ∧ answer.request.job.span = s := by
  rw [Scheduler.mem_finishedSpans]
  constructor
  · rintro ⟨job, live, left, rfl⟩
    obtain ⟨answer, into, mem, rfl⟩ := ledger.merges_deliveries_iff.mpr ⟨live, left⟩
    exact ⟨answer, into, mem, rfl⟩
  · rintro ⟨answer, into, mem, rfl⟩
    obtain ⟨live, left⟩ := ledger.merges_deliveries_iff.mp ⟨answer, into, mem, rfl⟩
    exact ⟨_, live, left, rfl⟩

/-- The requests whose jobs are live no more. The worker may still run them. -/
def abandoned (h : Highlighter) : List Request :=
  h.outstanding.filter fun r => r.job ∉ h.scheduler.liveJobs

/-- What comes back for a request that was abandoned is not merged. -/
theorem Ledger.finish_abandoned (ledger : h.Ledger) {r : Request} (mem : r ∈ h.abandoned)
    (runs : List StyleRun) : ∃ scheduler, h.finish r.job.id runs = (false, { h with scheduler }) := by
  obtain ⟨asked, gone⟩ := List.mem_filter.mp mem
  obtain ⟨scheduler, -, ⟨job, live, same, -⟩ | ⟨-, told⟩⟩ := finish_told ledger.sound r.job.id runs
  · have own := (ledger.vouched r asked).own job (Scheduler.mem_liveJobs.mp live).1 same
    exact absurd (own ▸ live) (of_decide_eq_true gone)
  · exact ⟨scheduler, told⟩

/-! ### Doing what is owed -/

/-- From one moment to a later one some spans were classified: their bytes read what classification
gives them, and what was not owed reads what it read. -/
structure Worked (spans : List Span) (h' h : Highlighter) : Prop where
  setting : SameSetting h' h
  advanced : Scheduler.Advanced h.snapshot.size spans h'.scheduler h.scheduler
  writes : ∀ s ∈ spans, ∀ o ∈ s, h'.index.styleAt o = h.categoryAt o
  keeps : ∀ o < h.snapshot.size, ¬h.scheduler.Owes o → h'.index.styleAt o = h.index.styleAt o

theorem Worked.trans (second : Worked later h'' h') (first : Worked spans h' h) :
    Worked (spans ++ later) h'' h := by
  obtain ⟨setting, advanced, writes, keeps⟩ := second
  rw [first.setting.snapshot] at advanced keeps
  rw [first.setting.categoryAt] at writes
  refine ⟨setting.trans first.setting, advanced.trans first.advanced, fun s hs o mem => ?_,
    fun o inside settled => ?_⟩
  · rcases List.mem_append.mp hs with early | late
    · have inside := (first.advanced.owed s early o mem).2
      rw [keeps o inside fun owed => ((first.advanced.rest o inside).mp owed).2 s early mem]
      exact first.writes s early o mem
    · exact writes s late o mem
  · rw [keeps o inside fun owed => settled ((first.advanced.rest o inside).mp owed).1]
    exact first.keeps o inside settled

/-- Owed bytes are done by writing them. -/
theorem Patched.worked {written : List Span} (patched : Patched written h' h)
    (advanced : Scheduler.Advanced h.snapshot.size spans h'.scheduler h.scheduler) :
    Worked spans h' h := by
  refine ⟨patched.setting, advanced, fun s hs o mem => ?_, fun o inside settled => ?_⟩
  · obtain ⟨owed, inside⟩ := advanced.owed s hs o mem
    have left : ¬h'.scheduler.Owes o := fun still =>
      ((advanced.rest o inside).mp still).2 s hs mem
    rw [patched.styleAt, if_pos (((patched.owes o inside).mp owed).resolve_left left)]
  · exact patched.styleAt_of_not_owes inside settled

/-- Nothing was classified, and neither jobs nor index have changed. -/
theorem worked_nil (setting : SameSetting h' h) (scheduler : h'.scheduler = h.scheduler)
    (index : h'.index = h.index) (accounts : h.scheduler.Accounts {o | h.scheduler.Owes o}) :
    Worked [] h' h where
  setting := setting
  advanced := by
    rw [scheduler]
    exact Scheduler.advanced_of_sameBooks accounts ⟨rfl, rfl, rfl, rfl, rfl⟩
  writes := nofun
  keeps := fun _ _ _ => by rw [index]

theorem worked_pump (balanced : h.Balanced) {basis : SyntaxTree × Rules}
    (parsed : h.basis? = some basis) (accounts : h.scheduler.Accounts {o | h.scheduler.Owes o}) :
    Worked h.atOnce h.pump h := by
  have idle := balanced.parsePending_eq_false
  have sound := balanced.ledger.sound
  obtain ⟨written, patched⟩ := patched_pump sound idle
  apply patched.worked
  have planned := Scheduler.advanced_plan accounts h.snapshot.size
  obtain ⟨scheduler, index, outbox, eq, books⟩ := pump_of_some idle parsed
  obtain ⟨worker, deferred, sent, -⟩ := submit_eq { h with scheduler, index, outbox }
    ((h.scheduler.plan h.snapshot.size).1.jobs.map fun job => ⟨job, basis.1, basis.2⟩)
  have handedOut : Scheduler.Advanced h.snapshot.size (h.atOnce ++ []) scheduler h.scheduler :=
    (Scheduler.advanced_of_sameBooks planned.accounts books).trans planned
  rw [List.append_nil] at handedOut
  rw [eq, sent]
  exact handedOut

theorem fewer_collectResults (sound : h.scheduler.Sound) :
    Scheduler.Fewer h.collectResults.2.scheduler h.scheduler := by
  have finished : ∀ (x : Highlighter) (id : JobId) (runs : List StyleRun),
      x.scheduler.Sound ∧ Scheduler.Fewer x.scheduler h.scheduler →
      (x.finish id runs).2.scheduler.Sound ∧
        Scheduler.Fewer (x.finish id runs).2.scheduler h.scheduler := by
    rintro x id runs ⟨sound, fewer⟩
    have books := sameBooks_finish sound id runs
    exact ⟨books.sound (sound.without id), books.fewer.trans fewer⟩
  refine (collectResults_keeps
    (P := fun x => x.scheduler.Sound ∧ Scheduler.Fewer x.scheduler h.scheduler) ?_ ?_ ?_).2
  · exact ⟨sound, rfl, List.Sublist.refl _, rfl, rfl⟩
  · exact fun a _ x kept => finished x _ _ kept
  · exact fun x r rest _ kept => finished { x with deferred := rest } _ _ kept

theorem worked_collectResults (balanced : h.Balanced)
    (accounts : h.scheduler.Accounts {o | h.scheduler.Owes o}) :
    Worked (Scheduler.finishedSpans h.scheduler h.collectResults.2.scheduler)
      h.collectResults.2 h := by
  obtain ⟨written, patched⟩ := balanced.ledger.patched_collectResults
  apply patched.worked
  apply (fewer_collectResults balanced.ledger.sound).advanced accounts
    balanced.collectResults.1.ledger.sound
  rw [← balanced.size]
  exact balanced.ledger.jobs

/-- A poll takes in results and classifies what is to be done at once. -/
theorem worked_poll (balanced : h.Balanced) (attached : h.attached = true)
    {basis : SyntaxTree × Rules} (parsed : h.basis? = some basis)
    (accounts : h.scheduler.Accounts {o | h.scheduler.Owes o}) :
    Worked (h.classified engine .poll) (h.call engine .poll) h := by
  obtain ⟨collected, same⟩ := balanced.collectResults
  have first := worked_collectResults balanced accounts
  have second := worked_pump collected (same.basis?.trans parsed) first.advanced.accounts
  have attached' := same.attached.trans attached
  change Worked (_ ++ (h.collectResults.2.upToDate engine).atOnce) _ h
  rw [balanced.poll_eq attached, collected.upToDate_eq_self attached']
  exact second.trans first

/-- Polls and steps of the worker only do what is owed. -/
theorem worked_run (balanced : h.Balanced) (attached : h.attached = true)
    {basis : SyntaxTree × Rules} (parsed : h.basis? = some basis)
    (accounts : h.scheduler.Accounts {o | h.scheduler.Owes o}) {calls : List HighlighterCall}
    (only : ∀ c ∈ calls, c = .poll ∨ c = .workerStep) :
    Worked (h.classifiedAlong engine calls) (h.run engine calls) h := by
  induction calls generalizing h with
  | nil => exact worked_nil (sameSetting_refl h) rfl rfl accounts
  | cons c rest ih =>
      obtain ⟨own, others⟩ := List.forall_mem_cons.mp only
      have first : Worked (h.classified engine c) (h.call engine c) h := by
        rcases own with rfl | rfl
        · exact worked_poll balanced attached parsed accounts
        · exact worked_nil ⟨rfl, rfl, rfl, rfl, rfl, rfl, rfl, rfl⟩ rfl rfl accounts
      have onwards := ih (balanced.turn c).balanced (first.setting.attached.trans attached)
        (first.setting.basis?.trans parsed) first.advanced.accounts others
      exact onwards.trans first

/-! ### Following a batch -/

/-- While no job is live, a batch carries what waits and adds what the index loses. -/
theorem mem_dirty_takeEdits (ledger : h.Ledger) (none : h.scheduler.liveJobs = [])
    (linedUp : (h.takeEdits edits).1 = true) :
    o ∈ (h.takeEdits edits).2.scheduler.dirty ↔
      o ∈ h.scheduler.dirty.carry edits ∨ h.index.Loses edits o := by
  induction edits generalizing h with
  | nil => exact (or_iff_left id).symm
  | cons e rest ih =>
      have upright := (takeEdits_of_linedUp linedUp).1
      obtain ⟨h', taken, eq⟩ := takeEdits_cons linedUp
      rw [eq] at linedUp ⊢
      obtain ⟨ledger', none'⟩ := ledger.takeEdit taken
      rw [ih ledger' none' linedUp]
      obtain ⟨-, -, rfl⟩ := takeEdit?_eq_some taken
      have noted : (h.scheduler.noteEdit (h.log.stamp e)).dirty =
          h.scheduler.dirty.splice e.splice := by
        unfold Scheduler.noteEdit Scheduler.promised
        rw [none]
        rfl
      have carried : o ∈ (followEdit h.scheduler (h.log.stamp e)
            (h.index.lost e.splice)).dirty.carry rest ↔
          o ∈ h.scheduler.dirty.carry (e :: rest) ∨
            ∃ region, h.index.lost e.splice = some region ∧
              o ∈ (SpanSet.ofList [region]).carry rest := by
        have others := (List.forall_mem_cons.mp upright).2
        cases gone : h.index.lost e.splice with
        | none =>
            change o ∈ (h.scheduler.noteEdit (h.log.stamp e)).dirty.carry rest ↔ _
            rw [noted]
            simp [SpanSet.carry]
        | some region =>
            -- The lost region joins what waits, and both are carried on side by side.
            have marked : ∀ o, o ∈ (followEdit h.scheduler (h.log.stamp e) (some region)).dirty ↔
                o ∈ h.scheduler.dirty.splice e.splice ∨ o ∈ SpanSet.ofList [region] := by
              intro o
              rw [mem_dirty_followEdit, noted]
              simp
            rw [SpanSet.mem_carry_or (SpanSet.normal_splice _ _) (SpanSet.normal_ofList _)
              (gone ▸ ledger'.sound.normal) others marked]
            simp [SpanSet.carry]
      dsimp only
      rw [carried, StyleIndex.Loses, or_assoc]

/-! ### Parsing along a batch -/

/-- After a parse along the pending edits, the changed spans and the edited lines wait beside what
waited before. -/
theorem mem_dirty_upToDate (none : h.scheduler.liveJobs = []) (due : h.parsePending = true)
    (mode : (h.upToDate engine).lastParseMode? = some .incremental) {l : Language}
    (language : h.language = some l) :
    ∃ t, l.keeper.tree = some t ∧ (h.upToDate engine).scheduler.liveJobs = [] ∧
      ∀ o, o ∈ (h.upToDate engine).scheduler.dirty ↔ o ∈ h.scheduler.dirty ∨
        (∃ s ∈ (engine l.rules.grammar (some (t, h.log.pending)) h.snapshot).changed, o ∈ s) ∨
        ∃ s ∈ (editedSpans h.log.pending).spans, o ∈ h.snapshot.text.expandToLines s := by
  have parsed : h.parsed engine = h.reparsed engine l := by
    unfold Highlighter.parsed
    rw [language]
    exact if_pos due
  unfold upToDate at mode ⊢
  rw [parsed] at mode ⊢
  have last : (l.keeper.outcome (engine l.rules.grammar) h.log.pending h.snapshot).mode =
      .incremental := Option.some.inj mode
  have along : ∃ t, l.keeper.tree = some t ∧
      l.keeper.outcome (engine l.rules.grammar) h.log.pending h.snapshot =
        TreeKeeper.parseFrom t (engine l.rules.grammar) h.log.pending h.snapshot := by
    rcases TreeKeeper.outcome_cases l.keeper (engine l.rules.grammar) h.log.pending h.snapshot with
      eq | ⟨t, tree, ⟨-, eq⟩ | ⟨-, eq⟩⟩
    · rw [eq, TreeKeeper.parseAfresh] at last
      dsimp only at last
      split at last <;> cases last
    · rw [eq] at last
      cases last
    · exact ⟨t, tree, eq⟩
  obtain ⟨t, tree, eq⟩ := along
  refine ⟨t, tree, none, fun o => ?_⟩
  change o ∈ (h.scheduler.beginReparse.request (changedBytes h.snapshot
    (l.keeper.outcome (engine l.rules.grammar) h.log.pending h.snapshot).changed
    h.log.pending)).dirty ↔ _
  have free : h.scheduler.beginReparse.liveJobs = [] := none
  rw [Scheduler.mem_dirty_request, free, eq, mem_changedBytes, mem_changed_parseFrom]
  simp [Scheduler.beginReparse]

/-! ### A change and what follows it -/

/-- With no job on the books every result is dropped. -/
theorem collectResults_of_isIdle (idle : h.isIdle = true) :
    h.collectResults.2.scheduler = h.scheduler ∧ h.collectResults.2.index = h.index := by
  have none := (books_of_isIdle idle).2
  have dropped : ∀ (x : Highlighter) (id : JobId) (runs : List StyleRun),
      x.scheduler = h.scheduler ∧ x.index = h.index →
      (x.finish id runs).2.scheduler = h.scheduler ∧ (x.finish id runs).2.index = h.index := by
    rintro x id runs ⟨same, index⟩
    unfold finish Scheduler.complete
    rw [same, none]
    exact ⟨rfl, index⟩
  exact collectResults_keeps
    (P := fun x => x.scheduler = h.scheduler ∧ x.index = h.index) ⟨rfl, rfl⟩
    (fun a _ x kept => dropped x _ _ kept) fun x r rest _ kept =>
      dropped { x with deferred := rest } _ _ kept

/-- A tree that was parsed is there to classify by. -/
theorem Balanced.exists_basis? (balanced : h.Balanced) (attached : h.attached = true)
    {mode : ParseMode} (parsed : h.lastParseMode? = some mode) :
    ∃ basis, h.basis? = some basis := by
  obtain ⟨l, language, -⟩ := Option.bind_eq_some_iff.mp parsed
  obtain ⟨t, tree, -⟩ := (balanced.parsed attached).2 l language
  refine ⟨(t, l.rules), ?_⟩
  unfold basis?
  rw [language, Option.bind_some, tree]
  rfl

/-- What a batch that was parsed along leaves to do: just the touched bytes of the text are owed,
and every other byte reads what the byte that it comes from read in the index of before. -/
structure Charged (index : StyleIndex) (changed : List Span) (target : Snapshot)
    (edits : List Edit) (h : Highlighter) : Prop where
  snapshot : h.snapshot = target
  accounts : h.scheduler.Accounts {o | h.scheduler.Owes o}
  owes : ∀ o, h.scheduler.Owes o ∧ o < target.size ↔ Touched index changed target edits o
  reads : ∀ o < target.size, ¬Touched index changed target edits o →
    ∃ p, preimageBefore? edits o = some p ∧ h.index.styleAt o = index.styleAt p

/-- A byte that a batch does not touch was there before, and the index still has its category. -/
theorem styleAt_of_not_touched {index : StyleIndex} {changed : List Span} {target : Snapshot}
    (upright : ∀ e ∈ edits, e.span.start ≤ e.span.stop) (inside : o < target.size)
    (untouched : ¬Touched index changed target edits o) :
    ∃ p, preimageBefore? edits o = some p ∧
      (edits.foldl (fun x e => x.apply e.splice) index).styleAt o = index.styleAt p := by
  cases moved : preimageBefore? edits o with
  | none =>
      obtain ⟨s, hs, mem⟩ := mem_editedSpans upright moved
      exact absurd ⟨inside, Or.inr (Or.inl ⟨s, hs, Text.mem_expandToLines mem inside⟩)⟩ untouched
  | some p =>
      refine ⟨p, rfl, (StyleIndex.styleAt_foldl_apply upright moved).resolve_right ?_⟩
      exact fun lost => untouched ⟨inside, Or.inr (Or.inr lost)⟩

theorem charged_upToDate (balanced : h.Balanced) (clean : h.scheduler.dirty = .empty)
    (none : h.scheduler.liveJobs = []) {target : Snapshot} (edited : edits ≠ [])
    (linedUp : (h.takeEdits edits).1 = true) (prepared : (h.following target edits).Prepared)
    {l : Language} (language : h.language = some l)
    (mode : ((h.following target edits).upToDate engine).lastParseMode? = some .incremental) :
    ∃ t, h.tree? = some t ∧ Charged h.index
      (engine l.rules.grammar (some (t, (h.takeEdits edits).2.log.pending)) target).changed
      target edits ((h.following target edits).upToDate engine) := by
  obtain ⟨log, scheduler, index, eq, -⟩ := takeEdits_eq h edits
  obtain ⟨upright, indexed, pending⟩ := takeEdits_of_linedUp linedUp
  have language' : (h.following target edits).language = some l := by
    unfold following
    rw [eq]
    exact language
  have due : (h.following target edits).parsePending = true :=
    prepared.parsePending_eq_true rfl language'
  have none' : (h.following target edits).scheduler.liveJobs = [] :=
    (balanced.ledger.takeEdits edits).2 linedUp edited
  obtain ⟨t, tree, live, requested⟩ := mem_dirty_upToDate none' due mode language'
  obtain ⟨language'', log', phase', dirty', brought, -⟩ :=
    upToDate_eq engine (h.following target edits)
  -- The log was drained, so the pending edits are those of the batch up to their stamps.
  have marks : editedSpans (h.takeEdits edits).2.log.pending = editedSpans edits := by
    apply editedSpans_congr
    rw [pending, balanced.drained]
    rfl
  have waits : ∀ o, o ∈ (h.following target edits).scheduler.dirty ↔ h.index.Loses edits o := by
    intro o
    refine (mem_dirty_takeEdits balanced.ledger none linedUp).trans (or_iff_right ?_)
    rw [clean]
    exact SpanSet.not_mem_carry_empty edits
  refine ⟨t, ?_, ?_, ?_, fun o => ?_, fun o inside untouched => ?_⟩
  · rw [tree?, language]
    exact tree
  · rw [brought]
    rfl
  · exact Scheduler.accounts_of_no_live prepared.upToDate.ledger.sound live fun o => by
      simp [Scheduler.Owes, live]
  · unfold Scheduler.Owes Touched
    rw [live, and_comm]
    refine and_congr_right fun _ => ?_
    simp only [List.not_mem_nil, false_and, exists_false, or_false]
    rw [requested o, waits o, ← marks, or_comm, or_assoc]
    rfl
  · rw [brought]
    change ∃ p, _ ∧ (h.takeEdits edits).2.index.styleAt o = _
    rw [indexed]
    exact styleAt_of_not_touched upright inside untouched

/-- From an idle highlighter, a change that is parsed along its edits passes through a state in which
just the touched bytes are owed, and the spans that are classified in it are classified from
there. -/
theorem Balanced.worked_change (balanced : h.Balanced) (attached : h.attached = true)
    (idle : h.isIdle = true) {l : Language} (language : h.language = some l) (edited : edits ≠ [])
    {target : Snapshot} (linedUp : (h.takeEdits edits).1 = true)
    (agrees : (h.takeEdits edits).2.agreesWith target = true)
    (mode : (h.call engine (.textDidChange target edits)).lastParseMode? = some .incremental) :
    ∃ t x basis, h.tree? = some t ∧ x.basis? = some basis ∧ x.attached = true ∧
      Charged h.index
        (engine l.rules.grammar (some (t, (h.takeEdits edits).2.log.pending)) target).changed
        target edits x ∧
      Worked (h.classified engine (.textDidChange target edits))
        (h.call engine (.textDidChange target edits)) x := by
  obtain ⟨collected, same⟩ := balanced.collectResults
  obtain ⟨scheduler, index⟩ := collectResults_of_isIdle idle
  have attached' := same.attached.trans attached
  -- The batch lines up as well once the results that were ready are dropped.
  obtain ⟨sameUp, sameLog⟩ := takeEdits_congr same.log edits
  have linedUp' := sameUp.trans linedUp
  have agrees' : (h.collectResults.2.takeEdits edits).2.agreesWith target = true := by
    unfold agreesWith at agrees ⊢
    rw [sameLog]
    exact agrees
  have prepared : (h.collectResults.2.following target edits).Prepared :=
    collected.prepared_takeEdits attached' linedUp' agrees'
  have current : ((h.collectResults.2.following target edits).upToDate engine).Balanced :=
    prepared.upToDate
  have here : ((h.collectResults.2.following target edits).upToDate engine).attached = true :=
    (attached_upToDate engine _).trans prepared.attached
  have pumped := sameSetting_pump ((h.collectResults.2.following target edits).upToDate engine)
  have changed : h.call engine (.textDidChange target edits) =
      ((h.collectResults.2.following target edits).upToDate engine).pump :=
    (textDidChange_of_inSync prepared.attached linedUp' agrees').trans
      (reconcile_eq prepared.attached)
  rw [changed] at mode ⊢
  unfold lastParseMode? at mode
  rw [pumped.language] at mode
  obtain ⟨basis, parsed⟩ := current.exists_basis? here mode
  obtain ⟨t, tree, charged⟩ := charged_upToDate collected
    (by rw [scheduler, (books_of_isIdle idle).1]) (by rw [scheduler, liveJobs_of_isIdle idle])
    edited linedUp' prepared (same.language.trans language) mode
  rw [index, sameLog] at charged
  refine ⟨t, _, _, same.tree?.symm.trans tree, parsed, here, charged, ?_⟩
  have nothing : Scheduler.finishedSpans h.scheduler h.collectResults.2.scheduler = [] := by
    unfold Scheduler.finishedSpans
    rw [liveJobs_of_isIdle idle]
    rfl
  unfold classified
  rw [nothing]
  exact worked_pump current parsed charged.accounts

/-- A change to an idle highlighter that is parsed along its edits costs what it touches. The spans
that are classified in it and in the polls behind it, until the highlighter is idle again, have no
byte in common and hold just the touched bytes, which read in the end what classification gives
them. Every other byte reads in the end what the byte that it comes from read before. -/
theorem classifies_what_is_touched (engine : ParsingEngine) (snapshot : Snapshot) (theme : Theme)
    (config : HighlighterConfig) (before after : List HighlighterCall) (target : Snapshot)
    (edits : List Edit) (g : Grammar) (only : ∀ c ∈ after, c = .poll ∨ c = .workerStep) :
    let h := (make snapshot theme config).run engine before
    let calls := .textDidChange target edits :: after
    h.attached = true → h.isIdle = true → h.grammar? = some g → edits ≠ [] →
    (h.takeEdits edits).1 = true → (h.takeEdits edits).2.agreesWith target = true →
    (h.call engine (.textDidChange target edits)).lastParseMode? = some .incremental →
    (h.run engine calls).isIdle = true →
      ∃ t, h.tree? = some t ∧
        let changed := (engine g (some (t, (h.takeEdits edits).2.log.pending)) target).changed
        let spans := h.classifiedAlong engine calls
        spans.Pairwise (fun a b => ∀ o ∈ a, o ∉ b) ∧
          (∀ o, (∃ s ∈ spans, o ∈ s) ↔ Touched h.index changed target edits o) ∧
          (∀ s ∈ spans, ∀ o ∈ s,
            (h.run engine calls).styleAt o = (h.run engine calls).categoryAt o) ∧
          ∀ o < target.size, ¬Touched h.index changed target edits o →
            ∃ p, preimageBefore? edits o = some p ∧
              (h.run engine calls).styleAt o = h.styleAt p := by
  intro h calls attached idle grammar edited linedUp agrees mode finished
  have balanced : h.Balanced := (balanced_make snapshot theme config).run before
  obtain ⟨l, language, rfl⟩ := Option.map_eq_some_iff.mp grammar
  obtain ⟨t, x, basis, tree, parsed, here, charged, first⟩ :=
    balanced.worked_change attached idle language edited linedUp agrees mode
  have total : Worked (h.classifiedAlong engine calls) (h.run engine calls) x :=
    (worked_run (balanced.turn _).balanced (first.setting.attached.trans here)
      (first.setting.basis?.trans parsed) first.advanced.accounts only).trans first
  have final : (h.run engine calls).Balanced := balanced.run calls
  refine ⟨t, tree, total.advanced.disjoint, fun o => ?_, fun s hs o mem => ?_,
    fun o inside untouched => ?_⟩
  · rw [← charged.owes o, ← charged.snapshot]
    exact total.advanced.covers fun o => not_owes_of_isIdle finished
  · rw [final.styleAt_eq, total.setting.categoryAt]
    exact total.writes s hs o mem
  · obtain ⟨p, moved, kept⟩ := charged.reads o inside untouched
    refine ⟨p, moved, ?_⟩
    rw [final.styleAt_eq, balanced.styleAt_eq, ← kept]
    refine total.keeps o (charged.snapshot ▸ inside) fun owed => untouched ?_
    exact (charged.owes o).mp ⟨owed, inside⟩

/-- An insertion in the second line drops the run that it falls into. Two jobs of the worker classify
what is behind the first line's word; the word is not touched and keeps its style. -/
theorem classifies_behind_insertion :
    let grammar : Grammar := ⟨"words", 14, some ⟨["word"], [[]]⟩, [100]⟩
    let before : List HighlighterCall :=
      [.setLanguage (some grammar), .attach, .workerStep, .poll, .workerStep, .poll]
    let target : Snapshot := ⟨1, .ofString "ab\ncxyd\nef\n"⟩
    let edits : List Edit := [⟨1, ⟨4, 4⟩, .ofString "xy"⟩]
    let calls : List HighlighterCall :=
      [.textDidChange target edits, .workerStep, .poll, .workerStep, .poll]
    ∃ h : Highlighter,
      h = (make ⟨0, .ofString "ab\ncd\nef\n"⟩ ⟨[("word", 7)]⟩ ⟨⟨0, 0, 5, 1⟩, 2, true⟩).run
        headEngine before ∧
      h.classifiedAlong headEngine calls = [⟨2, 7⟩, ⟨7, 11⟩] ∧
      h.styleAt 1 = .styled 7 ∧ (h.run headEngine calls).isIdle = true ∧
      (∀ o, (∃ s ∈ h.classifiedAlong headEngine calls, o ∈ s) ↔ Touched h.index [] target edits o) ∧
      ∀ o < target.size, ¬Touched h.index [] target edits o →
        ∃ p, preimageBefore? edits o = some p ∧
          (h.run headEngine calls).styleAt o = h.styleAt p := by
  obtain ⟨t, -, -, covers, -, keeps⟩ := classifies_what_is_touched headEngine
    ⟨0, .ofString "ab\ncd\nef\n"⟩ ⟨[("word", 7)]⟩ ⟨⟨0, 0, 5, 1⟩, 2, true⟩
    [.setLanguage (some ⟨"words", 14, some ⟨["word"], [[]]⟩, [100]⟩), .attach, .workerStep, .poll,
      .workerStep, .poll] [.workerStep, .poll, .workerStep, .poll]
    ⟨1, .ofString "ab\ncxyd\nef\n"⟩ [⟨1, ⟨4, 4⟩, .ofString "xy"⟩]
    ⟨"words", 14, some ⟨["word"], [[]]⟩, [100]⟩ (by simp) (by cbv) (by cbv) (by cbv) (by simp)
    (by cbv) (by cbv) (by cbv) (by cbv)
  -- All edits are behind the captured bytes, so the parse answers no changed span.
  have unchanged : ∀ (g : Grammar) (t : SyntaxTree) (edits : List Edit) (target : Snapshot),
      (edits.all fun e => 2 ≤ e.span.start) = true →
      (headEngine g (some (t, edits)) target).changed = [] := fun _ _ _ _ behind => if_pos behind
  rw [unchanged _ _ _ _ (by cbv)] at covers keeps
  exact ⟨_, rfl, by cbv, by cbv, by cbv, covers, keeps⟩

end Highlighter

end Highlighting
