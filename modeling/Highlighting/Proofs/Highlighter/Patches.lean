import Highlighting.Proofs.Highlighter.Turns
import Highlighting.Proofs.Runs

/-!
What taking results in and handing out work write.

Either changes the index by what classification gives some spans with the tree and the rules of the
moment, announces just that, and settles just the bytes of these spans (`Patched`). Patches compose,
so it is enough to follow the result of one job and one span that is classified at once.
-/

namespace Highlighting

namespace Scheduler

variable {s : Scheduler} {o : Nat}

/-- A live job takes its bytes along. -/
theorem owes_without_live (sound : s.Sound) {job : Job} (live : job ∈ s.liveJobs) :
    s.Owes o ↔ (s.without job.id).Owes o ∨ o ∈ job.span := by
  constructor
  · rintro (waits | ⟨j, hj, within⟩)
    · exact Or.inl (Or.inl waits)
    · by_cases same : j.id = job.id
      · right
        rwa [← sound.eq_of_id_eq (mem_liveJobs.mp hj).1 (mem_liveJobs.mp live).1 same]
      · exact Or.inl (Or.inr ⟨j, mem_liveJobs_without.mpr ⟨hj, same⟩, within⟩)
  · rintro ((waits | ⟨j, hj, within⟩) | own)
    · exact Or.inl waits
    · exact Or.inr ⟨j, (mem_liveJobs_without.mp hj).1, within⟩
    · exact Or.inr ⟨job, live, own⟩

/-- Any other job takes nothing along. -/
theorem owes_without {id : JobId} (absent : ∀ j ∈ s.liveJobs, j.id ≠ id) :
    (s.without id).Owes o ↔ s.Owes o := by
  refine or_congr_right (exists_congr fun j => and_congr_left fun _ => ?_)
  rw [mem_liveJobs_without]
  exact and_iff_left_of_imp (absent j)

/-- A plan answers bytes to classify at once; all others of the document stay owed. -/
theorem Planned.owes_iff {size : Nat} {p : Plan} {t : Scheduler} (planned : Planned s size p t)
    (inside : o < size) : s.Owes o ↔ t.Owes o ∨ ∃ c ∈ p.inline, o ∈ c := by
  have split := planned.mem_dirty (o := o)
  rw [and_iff_left inside] at split
  unfold Owes
  rw [planned.liveJobs, split]
  simp only [List.mem_append, or_and_right, exists_or]
  constructor
  · rintro ((atOnce | new | waits) | old)
    · exact Or.inr atOnce
    · exact Or.inl (Or.inr (Or.inr new))
    · exact Or.inl (Or.inl waits)
    · exact Or.inl (Or.inr (Or.inl old))
  · rintro ((waits | old | new) | atOnce)
    · exact Or.inl (Or.inr (Or.inr waits))
    · exact Or.inr old
    · exact Or.inl (Or.inr (Or.inl new))
    · exact Or.inl (Or.inl atOnce)

end Scheduler

namespace Highlighter

variable {h h' h'' : Highlighter} {spans later : List Span} {o : Nat}

/-! ### Classification -/

theorem checkTiling_classify (h : Highlighter) {s : Span} (nonempty : s.start < s.stop) :
    checkTiling s.start s.stop (h.classify s) = .ok () := by
  unfold classify
  cases h.basis? with
  | none =>
      exact StyleIndex.checkTiling_cons.mpr ⟨rfl, nonempty, StyleIndex.checkTiling_nil.mpr rfl⟩
  | some basis => exact SyntaxTree.checkTiling_classify nonempty

/-- The category of a byte does not depend on the span with which it is classified. -/
theorem categoryAt_classify (h : Highlighter) {s : Span} (mem : o ∈ s) :
    StyleRun.categoryAt (h.classify s) o = h.categoryAt o := by
  unfold classify Highlighter.categoryAt
  cases h.basis? with
  | none => exact if_pos mem
  | some basis => exact SyntaxTree.categoryAt_classify mem

theorem SameSetting.categoryAt (same : SameSetting h' h) : h'.categoryAt = h.categoryAt := by
  funext o
  unfold Highlighter.categoryAt
  rw [same.basis?]

theorem SameSetting.classify (same : SameSetting h' h) : h'.classify = h.classify := by
  funext s
  unfold Highlighter.classify
  rw [same.basis?]

/-- Storing what classification says of some spans makes just their bytes right. -/
theorem styleAt_foldl_store {spans : List Span} (nonempty : ∀ s ∈ spans, s.start < s.stop)
    (x : StyleIndex) :
    (spans.foldl (fun x s => x.store s (h.classify s)) x).styleAt o =
        (if ∃ s ∈ spans, o ∈ s then h.categoryAt o else x.styleAt o) := by
  induction spans generalizing x with
  | nil => simp
  | cons s rest ih =>
      obtain ⟨first, others⟩ := List.forall_mem_cons.mp nonempty
      rw [List.foldl_cons, ih others, StyleIndex.styleAt_store (h.checkTiling_classify first)]
      by_cases later : ∃ t ∈ rest, o ∈ t
      · rw [if_pos later, if_pos]
        obtain ⟨t, ht, mem⟩ := later
        exact ⟨t, List.mem_cons_of_mem s ht, mem⟩
      · rw [if_neg later]
        by_cases mem : o ∈ s
        · rw [if_pos mem, if_pos ⟨s, List.mem_cons_self, mem⟩, h.categoryAt_classify mem]
        · rw [if_neg mem, if_neg]
          rintro ⟨t, ht, within⟩
          rcases List.mem_cons.mp ht with rfl | behind
          · exact mem within
          · exact later ⟨t, behind, within⟩

/-- Written over a map, what classification says of some spans changes just their bytes. -/
theorem overwrite_classify {m : Nat → Category} (nonempty : ∀ s ∈ spans, s.start < s.stop) :
    StyleRun.overwrite m (spans.flatMap h.classify) o =
      if ∃ s ∈ spans, o ∈ s then h.categoryAt o else m o := by
  induction spans generalizing m with
  | nil => simp [StyleRun.overwrite]
  | cons s rest ih =>
      obtain ⟨first, others⟩ := List.forall_mem_cons.mp nonempty
      rw [List.flatMap_cons, StyleRun.overwrite_append, ih others,
        StyleRun.overwrite_of_tiling (h.checkTiling_classify first)]
      simp only [List.mem_cons, exists_eq_or_imp]
      by_cases later : ∃ t ∈ rest, o ∈ t
      · rw [if_pos later, if_pos (Or.inr later)]
      · rw [if_neg later]
        by_cases mem : o ∈ s
        · rw [if_pos mem, if_pos (Or.inl mem), h.categoryAt_classify mem]
        · rw [if_neg mem, if_neg (not_or.mpr ⟨mem, later⟩)]

/-! ### Patches -/

/-- Some spans were given what classification says of them, and it was announced. -/
structure Patched (spans : List Span) (h' h : Highlighter) : Prop where
  setting : SameSetting h' h
  listeners : h'.listeners = h.listeners
  nonempty : ∀ s ∈ spans, s.start < s.stop
  index : h'.index = spans.foldl (fun x s => x.store s (h.classify s)) h.index
  outbox : h'.outbox = h.outbox ++ spans.flatMap fun s => h.listeners.notify (h.classify s)
  owes : ∀ o < h.snapshot.size,
    h.scheduler.Owes o ↔ h'.scheduler.Owes o ∨ ∃ s ∈ spans, o ∈ s

/-- Nothing has changed but the queues and what does not count. -/
theorem patched_nil (setting : SameSetting h' h) (listeners : h'.listeners = h.listeners)
    (index : h'.index = h.index) (outbox : h'.outbox = h.outbox)
    (owes : ∀ o < h.snapshot.size, h'.scheduler.Owes o ↔ h.scheduler.Owes o) : Patched [] h' h where
  setting := setting
  listeners := listeners
  nonempty := nofun
  index := index
  outbox := by simpa using outbox
  owes := fun o inside => by simp [owes o inside]

theorem Patched.trans (second : Patched later h'' h') (first : Patched spans h' h) :
    Patched (spans ++ later) h'' h where
  setting := second.setting.trans first.setting
  listeners := second.listeners.trans first.listeners
  nonempty := fun s hs => (List.mem_append.mp hs).elim (first.nonempty s) (second.nonempty s)
  index := by
    rw [second.index, first.index, first.setting.classify, List.foldl_append]
  outbox := by
    rw [second.outbox, first.outbox, first.setting.classify, first.listeners, List.flatMap_append,
      List.append_assoc]
  owes := by
    intro o inside
    rw [first.owes o inside, second.owes o (first.setting.snapshot ▸ inside)]
    simp only [List.mem_append, or_and_right, exists_or]
    rw [or_assoc, or_comm (b := ∃ s ∈ spans, o ∈ s)]

/-- The bytes of a patch read what classification gives them; no other byte is changed. -/
theorem Patched.styleAt (patched : Patched spans h' h) (o : Nat) :
    h'.index.styleAt o =
      if ∃ s ∈ spans, o ∈ s then h.categoryAt o else h.index.styleAt o := by
  rw [patched.index, styleAt_foldl_store patched.nonempty]

/-- A byte that is not owed keeps what it reads. -/
theorem Patched.styleAt_of_not_owes (patched : Patched spans h' h) (inside : o < h.snapshot.size)
    (settled : ¬h.scheduler.Owes o) : h'.index.styleAt o = h.index.styleAt o := by
  rw [patched.styleAt, if_neg]
  exact fun written => settled ((patched.owes o inside).mpr (Or.inr written))

/-! ### Results -/

theorem merge_of_tiling {s : Span} {runs : List StyleRun}
    (tiles : checkTiling s.start s.stop runs = .ok ()) :
    h.merge s runs = { h with
      index := h.index.store s runs
      outbox := h.outbox ++ h.listeners.notify runs } := by
  unfold merge StyleIndex.store
  rw [StyleIndex.replace_of_tiling tiles]
  rfl

/-- The result of a job is taken in. If the job is live, the runs have to be what classification
gives its span. -/
theorem patched_finish (sound : h.scheduler.Sound) (id : JobId) (runs : List StyleRun)
    (right : ∀ job ∈ h.scheduler.liveJobs, job.id = id → runs = h.classify job.span) :
    ∃ spans, Patched spans (h.finish id runs).2 h := by
  have same := sameSetting_finish h id runs
  obtain ⟨scheduler, books, ⟨job, live, rfl, told⟩ | ⟨absent, told⟩⟩ := finish_told sound id runs
  · have nonempty := sound.nonempty job (Scheduler.mem_liveJobs.mp live).1
    have tiles : checkTiling job.span.start job.span.stop runs = .ok () := by
      rw [right job live rfl]
      exact h.checkTiling_classify nonempty
    rw [told, merge_of_tiling tiles] at same ⊢
    refine ⟨[job.span], same, rfl, by simpa using nonempty, ?_, ?_, fun o _ => ?_⟩
    · rw [right job live rfl]
      rfl
    · rw [right job live rfl]
      simp
    · rw [books.owes_iff, Scheduler.owes_without_live sound live]
      simp
  · rw [told] at same ⊢
    refine ⟨[], patched_nil same rfl rfl rfl fun o _ => ?_⟩
    rw [books.owes_iff]
    exact Scheduler.owes_without absent

/-- The answer to a request that the books vouch for is taken in. -/
theorem Ledger.patched_answer (ledger : h.Ledger) {a : Answer} (vouched : h.Vouched a.request)
    (answered : a = a.request.answer) :
    ∃ spans, Patched spans (h.finish a.request.job.id a.runs).2 h := by
  apply patched_finish ledger.sound
  intro job live own
  have same := vouched.own job (Scheduler.mem_liveJobs.mp live).1 own
  rw [same] at live ⊢
  have basis := vouched.current live
  rw [congrArg Answer.runs answered]
  unfold classify
  rw [basis]
  rfl

theorem Patched.of_queues (patched : Patched spans h' h) (worker : Option Worker)
    (deferred : List Request) : Patched spans { h' with worker, deferred } h :=
  { patched with setting := { patched.setting with } }

/-- All results that are ready are taken in. -/
theorem Ledger.patched_collectResults (ledger : h.Ledger) :
    ∃ spans, Patched spans h.collectResults.2 h := by
  have ready := ledger.vouched_readyAnswers
  have start : Patched [] h h :=
    patched_nil (sameSetting_refl h) rfl rfl rfl fun o _ => Iff.rfl
  refine (collectResults_keeps (P := fun x => ((∃ spans, Patched spans x h) ∧ x.Ledger) ∧
    ∀ a ∈ h.readyAnswers, x.Vouched a.request) ?_ ?_ ?_).1.1
  · refine ⟨⟨⟨[], start.of_queues _ _⟩, ledger.withoutAnswers⟩, ?_⟩
    intro a ha
    exact (ready a ha).1
  · rintro a ha x ⟨⟨⟨spans, patched⟩, ledger'⟩, vouched⟩
    obtain ⟨later, merged⟩ := ledger'.patched_answer (vouched a ha) (ready a ha).2
    refine ⟨⟨⟨_, merged.trans patched⟩, ledger'.finish _ _⟩, ?_⟩
    intro b hb
    exact (vouched b hb).finish ledger'.sound _ _
  · rintro x r rest waiting ⟨⟨⟨spans, patched⟩, ledger'⟩, vouched⟩
    have taken := ledger'.of_deferred waiting
    obtain ⟨later, merged⟩ :=
      taken.patched_answer (a := r.answer) (ledger'.vouched_deferred waiting) rfl
    refine ⟨⟨⟨_, merged.trans (patched.of_queues x.worker rest)⟩, taken.finish _ _⟩, ?_⟩
    intro b hb
    obtain ⟨issued, own, current⟩ := vouched b hb
    have same : Vouched { x with deferred := rest } b.request := ⟨issued, own, current⟩
    exact same.finish taken.sound _ _

/-! ### Handing out work -/

theorem foldl_classifyNow_of_nonempty (nonempty : ∀ s ∈ spans, s.start < s.stop) :
    spans.foldl classifyNow h = { h with
      index := spans.foldl (fun x s => x.store s (h.classify s)) h.index
      outbox := h.outbox ++ spans.flatMap fun s => h.listeners.notify (h.classify s) } := by
  induction spans generalizing h with
  | nil => simp
  | cons s rest ih =>
      obtain ⟨first, others⟩ := List.forall_mem_cons.mp nonempty
      rw [List.foldl_cons, ih others, classifyNow, merge_of_tiling (h.checkTiling_classify first),
        List.flatMap_cons, List.foldl_cons, ← List.append_assoc]
      rfl

/-- What is to be classified at once is classified. -/
theorem patched_planned (sound : h.scheduler.Sound) :
    Patched (h.scheduler.plan h.snapshot.size).1.inline h.planned h := by
  have planned := Scheduler.planned sound.normal h.snapshot.size
  have eq := foldl_classifyNow_of_nonempty
    (h := { h with scheduler := (h.scheduler.plan h.snapshot.size).2 }) planned.inline.nonempty
  change h.planned = _ at eq
  rw [eq]
  exact ⟨⟨rfl, rfl, rfl, rfl, rfl, rfl, rfl, rfl⟩, rfl, planned.inline.nonempty, rfl, rfl,
    fun o inside => planned.owes_iff inside⟩

/-- Without a tree jobs are finished with what classification says: nothing. -/
theorem patched_foldl_finishPlain (sound : h.scheduler.Sound) (plain : h.basis? = none)
    {jobs : List Job} (own : ∀ job ∈ jobs, ∀ j ∈ h.scheduler.inFlight, j.id = job.id → j = job) :
    ∃ spans, Patched spans (jobs.foldl finishPlain h) h := by
  induction jobs generalizing h with
  | nil => exact ⟨[], patched_nil (sameSetting_refl h) rfl rfl rfl fun o _ => Iff.rfl⟩
  | cons job rest ih =>
      obtain ⟨first, others⟩ := List.forall_mem_cons.mp own
      have books := sameBooks_finish sound job.id [.unclassified job.span]
      obtain ⟨spans, done⟩ := patched_finish sound job.id [.unclassified job.span]
        fun j live numbered => by
          rw [first j (Scheduler.mem_liveJobs.mp live).1 numbered]
          unfold classify
          rw [plain]
      obtain ⟨later, further⟩ := ih (h := h.finishPlain job) (books.sound (sound.without job.id))
        (done.setting.basis?.trans plain) fun k hk j hj numbered => by
          rw [finishPlain, books.inFlight] at hj
          exact others k hk j (Scheduler.mem_inFlight_without.mp hj).1 numbered
      exact ⟨_, further.trans done⟩

theorem patched_dispatch (sound : h.scheduler.Sound) {jobs : List Job}
    (issued : ∀ j ∈ jobs, j ∈ h.scheduler.inFlight) :
    ∃ spans, Patched spans (h.dispatch jobs) h := by
  cases basis : h.basis? with
  | none =>
      rw [dispatch_of_none basis]
      apply patched_foldl_finishPlain sound basis
      intro job hjob j hj same
      exact sound.eq_of_id_eq hj (issued job hjob) same
  | some basis' =>
      rw [dispatch_of_some basis]
      obtain ⟨worker, deferred, eq, -⟩ :=
        submit_eq h (jobs.map fun job => ⟨job, basis'.1, basis'.2⟩)
      rw [eq]
      exact ⟨[], (patched_nil (sameSetting_refl h) rfl rfl rfl fun o _ => Iff.rfl).of_queues
        worker deferred⟩

/-- Work is handed out, and what is to be done at once is done. -/
theorem patched_pump (sound : h.scheduler.Sound) (idle : h.parsePending = false) :
    ∃ spans, Patched spans h.pump h := by
  have planned := Scheduler.planned sound.normal h.snapshot.size
  obtain ⟨scheduler, eq, books⟩ := pump_eq idle
  obtain ⟨outbox, inline⟩ := planned_eq h
  have scheduled : h.planned.scheduler = (h.scheduler.plan h.snapshot.size).2 := by
    rw [inline]
  have issued : ∀ j ∈ (h.scheduler.plan h.snapshot.size).1.jobs,
      j ∈ h.planned.scheduler.inFlight := by
    intro j hj
    rw [scheduled, planned.inFlight]
    exact List.mem_append_right _ hj
  obtain ⟨spans, sent⟩ := patched_dispatch (h := h.planned) (scheduled ▸ sound.plan _) issued
  have settled : Patched [] h.pump
      (h.planned.dispatch (h.scheduler.plan h.snapshot.size).1.jobs) := by
    rw [eq]
    exact patched_nil ⟨rfl, rfl, rfl, rfl, rfl, rfl, rfl, rfl⟩ rfl rfl rfl fun o _ => books.owes_iff
  exact ⟨_, settled.trans (sent.trans (patched_planned sound))⟩

end Highlighter

end Highlighting
