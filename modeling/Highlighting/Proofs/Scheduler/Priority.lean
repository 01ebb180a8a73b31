import Highlighting.Proofs.Scheduler.Division

/-!
Visible bytes go first.

The next chunk starts at the least waiting byte that is not before the visible part, and if there is
none at the least waiting byte (`Scheduler.firstFrom_nextChunk?`). The loop of a plan cuts its chunks
one after another, each out of what the earlier ones left, so the same holds of every job and the
bytes that wait when it is dispatched.

As long as a visible byte waits, the least byte from the start of the visible part on is visible too.
A job apart from the visible part is therefore dispatched only once all visible bytes were handed
out, in the same plan or in an earlier one, unless new bytes were queued in between.
-/

namespace Highlighting

/-- Calls that work off what waits and queue nothing. -/
def SchedulerCall.Works : SchedulerCall → Prop
  | .plan _ | .complete _ | .finishApplying | .beginReparse => True
  | .setVisible _ | .noteEdit _ | .markDirty _ | .request _ | .invalidateAll _ | .reset _
  | .requeueInFlight => False

/-- The least of some bytes from `start` on, or the least of them all if none is left there. -/
def FirstFrom (start : Nat) (bytes : Set Nat) (o : Nat) : Prop :=
  IsLeast {b ∈ bytes | start ≤ b} o ∨ (∀ b ∈ bytes, b < start) ∧ IsLeast bytes o

/-- As long as some of the bytes lie in a span, the first one from its start on does. -/
theorem FirstFrom.mem_of_exists {v : Span} {bytes : Set Nat} {o : Nat}
    (first : FirstFrom v.start bytes o) (some : ∃ b ∈ bytes, b ∈ v) : o ∈ v := by
  obtain ⟨b, mem, starts, stops⟩ := some
  rcases first with least | ⟨before, -⟩
  · exact ⟨least.1.2, Nat.lt_of_le_of_lt (least.2 ⟨mem, starts⟩) stops⟩
  · exact absurd starts (Nat.not_le_of_lt (before b mem))

namespace SpanSet

variable {d : SpanSet} {r : Span}

/-- The first stored span that reaches past an offset holds the least byte from there on. -/
theorem Normal.isLeast_of_find? (normal : d.Normal) {start : Nat}
    (found : d.spans.find? (fun r => start < r.stop) = some r) :
    IsLeast {o ∈ d.bytes | start ≤ o} (max start r.start) := by
  obtain ⟨reaches, before, behind, spans, short⟩ := List.find?_eq_some_iff_append.mp found
  have apart := normal.apart
  rw [spans, List.pairwise_append, List.pairwise_cons] at apart
  have hr : r ∈ d.spans := List.mem_of_find?_eq_some found
  have nonempty := normal.nonempty r hr
  simp only [decide_eq_true_eq] at reaches
  refine ⟨⟨⟨r, hr, ?_⟩, Nat.le_max_left _ _⟩, ?_⟩
  · simp only [Span.mem_iff]
    omega
  · rintro o ⟨⟨t, ht, inside⟩, from_start⟩
    rw [spans] at ht
    simp only [Span.mem_iff] at inside
    rcases List.mem_append.mp ht with early | late
    · have ends := short t early
      simp only [Bool.not_eq_true', decide_eq_false_iff_not] at ends
      omega
    · rcases List.mem_cons.mp late with rfl | later
      · omega
      · have := apart.2.1.1 t later
        omega

/-- The first stored span starts at the least byte. -/
theorem Normal.isLeast_of_head? (normal : d.Normal) (head : d.spans.head? = some r) :
    IsLeast d.bytes r.start := by
  obtain ⟨rest, spans⟩ := List.head?_eq_some_iff.mp head
  have apart := normal.apart
  have nonempty := normal.nonempty r (List.mem_of_head? head)
  rw [spans, List.pairwise_cons] at apart
  refine ⟨⟨r, List.mem_of_head? head, Nat.le_refl _, nonempty⟩, ?_⟩
  rintro o ⟨t, ht, inside⟩
  rw [spans] at ht
  simp only [Span.mem_iff] at inside
  rcases List.mem_cons.mp ht with rfl | later
  · exact inside.1
  · have := apart.1 t later
    omega

end SpanSet

namespace Scheduler

/-- The waiting bytes of the document outside some spans. -/
def left (s : Scheduler) (size : Nat) (taken : List Span) : Finset Nat :=
  s.waiting size \ Span.cover taken

/-- The spans that are handed out along some calls. -/
def spansAlong (s : Scheduler) : List SchedulerCall → List Span
  | [] => []
  | .plan size :: rest => (s.plan size).1.spans ++ spansAlong (s.plan size).2 rest
  | c :: rest => spansAlong (s.call c) rest

variable {s : Scheduler} {d : SpanSet} {v : Span} {o size : Nat} {earlier later : List Job}
  {j : Job}

/-! ### One plan -/

/-- A chunk is cut from the start of the visible part on if the span holds that, else from the start
of the span. -/
theorem exists_of_nextChunk? {limit : Nat} {c : Span}
    (next : nextChunk? (some v) limit d = some c) :
    ∃ r, ((d.spans.find? fun r => v.start < r.stop) <|> d.spans.head?) = some r ∧
      c.start = if r.contains v.start then v.start else r.start := by
  unfold nextChunk? at next
  simp only [Option.map_some, Option.getD_some] at next
  split at next
  · cases next
  · rename_i r picked
    cases next
    exact ⟨r, picked, rfl⟩

theorem firstFrom_nextChunk? {limit : Nat} {c : Span} (normal : d.Normal)
    (next : nextChunk? (some v) limit d = some c) : FirstFrom v.start d.bytes c.start := by
  obtain ⟨r, picked, starts⟩ := exists_of_nextChunk? next
  simp only [Span.contains, Span.mem_iff, decide_eq_true_eq] at starts
  cases found : d.spans.find? fun r => v.start < r.stop with
  | some r' =>
      rw [found] at picked
      cases picked
      have reaches := List.find?_some found
      simp only [decide_eq_true_eq] at reaches
      have least := normal.isLeast_of_find? found
      have same : c.start = max v.start r.start := by
        rw [starts]
        split <;> omega
      exact Or.inl (same ▸ least)
  | none =>
      rw [found] at picked
      have ends := List.find?_eq_none.mp found
      simp only [decide_eq_true_eq, Nat.not_lt] at ends
      have least := normal.isLeast_of_head? picked
      have same : c.start = r.start := by
        have := ends r (List.mem_of_head? picked)
        rw [starts, if_neg (by omega)]
      refine Or.inr ⟨?_, same ▸ least⟩
      rintro b ⟨t, ht, inside⟩
      exact Nat.lt_of_lt_of_le inside.2 (ends t ht)

/-- Each round cuts the next chunk of what the earlier rounds left. -/
theorem Dispatches.next_of_append {visible : Option Span} {limit most outstanding : Nat}
    {rest : SpanSet} {earlier later : List Span} {c : Span}
    (loop : Dispatches visible limit most outstanding d (earlier ++ c :: later) rest) :
    nextChunk? visible limit (d.eraseAll earlier) = some c := by
  induction earlier generalizing outstanding d with
  | nil =>
      cases loop with
      | round _ next _ => exact next
  | cons a earlier ih =>
      cases loop with
      | round _ _ further => exact ih further

theorem mem_left {taken : List Span} :
    o ∈ s.left size taken ↔ (o ∈ s.dirty ∧ o < size) ∧ ∀ c ∈ taken, o ∉ c := by
  rw [left, Finset.mem_sdiff, mem_waiting, Span.mem_cover]
  simp only [not_exists, not_and]

/-- A job starts at the first byte that waits when it is dispatched. -/
theorem firstFrom_job (normal : s.dirty.Normal) (hint : s.visible = some v)
    (jobs : (s.plan size).1.jobs = earlier ++ j :: later) :
    FirstFrom v.start (s.left size ((s.plan size).1.inline ++ earlier.map Job.span))
      j.span.start := by
  have loop := dispatches_plan s size
  rw [hint, jobs, List.map_append, List.map_cons] at loop
  have rest := ((normal.truncate size).eraseAll (s.plan size).1.inline).eraseAll
    (earlier.map Job.span)
  have bytes : (((s.dirty.truncate size).eraseAll (s.plan size).1.inline).eraseAll
      (earlier.map Job.span)).bytes =
        s.left size ((s.plan size).1.inline ++ earlier.map Job.span) := by
    ext o
    rw [SpanSet.mem_bytes, SpanSet.mem_eraseAll, SpanSet.mem_eraseAll, SpanSet.mem_truncate,
      Finset.mem_coe, mem_left, List.forall_mem_append, and_assoc]
  rw [← bytes]
  exact firstFrom_nextChunk? rest loop.next_of_append

/-- As long as a visible byte waits, a job holds one. -/
theorem exists_visible_of_mem_left (normal : s.dirty.Normal) (hint : s.visible = some v)
    (jobs : (s.plan size).1.jobs = earlier ++ j :: later)
    (waits : ∃ o ∈ s.left size ((s.plan size).1.inline ++ earlier.map Job.span), o ∈ v) :
    ∃ o ∈ j.span, o ∈ v := by
  have mem : j ∈ (s.plan size).1.jobs := by
    rw [jobs]
    exact List.mem_append_right _ List.mem_cons_self
  have nonempty := (planned normal size).jobs.nonempty j.span (List.mem_map_of_mem mem)
  have visible := (firstFrom_job normal hint jobs).mem_of_exists waits
  exact ⟨j.span.start, ⟨Nat.le_refl _, nonempty⟩, visible⟩

/-! ### Working on -/

theorem visible_call {c : SchedulerCall} (works : c.Works) : (s.call c).visible = s.visible := by
  cases c with
  | plan size => exact congrArg Prod.snd (limits_plan s size)
  | complete id => exact congrArg Prod.snd (limits_complete s id)
  | finishApplying | beginReparse => rfl
  | _ => exact works.elim

theorem visible_run {work : List SchedulerCall} (works : ∀ c ∈ work, c.Works) :
    (s.run work).visible = s.visible := by
  induction work generalizing s with
  | nil => rfl
  | cons c rest ih =>
      obtain ⟨first, others⟩ := List.forall_mem_cons.mp works
      exact (ih (s := s.call c) others).trans (visible_call first)

/-- A waiting byte of the document goes on waiting or is handed out. -/
theorem mem_dirty_run_or {work : List SchedulerCall} (normal : s.dirty.Normal)
    (works : ∀ c ∈ work, c.Works) (below : ∀ n, .plan n ∈ work → o < n) (mem : o ∈ s.dirty) :
    o ∈ (s.run work).dirty ∨ ∃ c ∈ s.spansAlong work, o ∈ c := by
  induction work generalizing s with
  | nil => exact Or.inl mem
  | cons c rest ih =>
      obtain ⟨first, others⟩ := List.forall_mem_cons.mp works
      have further := fun kept => ih (s := s.call c) (normal_call normal c) others
        (fun n hn => below n (List.mem_cons_of_mem _ hn)) kept
      cases c with
      | plan n =>
          have inside : o ∈ s.dirty.truncate n :=
            SpanSet.mem_truncate.mpr ⟨mem, below n List.mem_cons_self⟩
          rcases (split_plan normal n).mem_iff.mp inside with ⟨c, hc, taken⟩ | kept
          · exact Or.inr ⟨c, List.mem_append_left _ hc, taken⟩
          · refine (further kept).imp_right ?_
            rintro ⟨c, hc, taken⟩
            exact ⟨c, List.mem_append_right _ hc, taken⟩
      | complete id => exact further ((dirty_complete s id).symm ▸ mem)
      | finishApplying | beginReparse => exact further mem
      | _ => exact first.elim

/-- Each job of a plan starts at the least byte from the start of the visible part on that waits
when it is dispatched, or else at the least one that waits. So it holds a visible byte as long as one
waits, and as long as calls only work off what waits, a job apart from the visible part comes after
all bytes of that part that lie in the document. -/
theorem visible_bytes_go_first (config : SchedulerConfig) (revision : Revision)
    (calls : List SchedulerCall) (v : Span)
    (hint : ((start config revision).run calls).visible = some v) :
    let s := (start config revision).run calls
    (∀ (size : Nat) (earlier : List Job) (j : Job) (later : List Job),
      (s.plan size).1.jobs = earlier ++ j :: later →
      let bytes := s.left size ((s.plan size).1.inline ++ earlier.map Job.span)
      FirstFrom v.start bytes j.span.start ∧ ((∃ o ∈ bytes, o ∈ v) → ∃ o ∈ j.span, o ∈ v)) ∧
    ∀ work : List SchedulerCall, (∀ c ∈ work, c.Works) →
      ∀ (size : Nat) (earlier : List Job) (j : Job) (later : List Job),
        ((s.run work).plan size).1.jobs = earlier ++ j :: later → (∀ o ∈ j.span, o ∉ v) →
        ∀ o ∈ v, o ∈ s.dirty → (∀ n, .plan n ∈ work ++ [.plan size] → o < n) →
          ∃ c ∈ s.spansAlong work ++ (((s.run work).plan size).1.inline ++ earlier.map Job.span),
            o ∈ c := by
  intro s
  have normal : s.dirty.Normal := normal_run SpanSet.normal_empty calls
  refine ⟨fun size earlier j later jobs => ?_, fun work works size earlier j later jobs apart o seen
    mem below => ?_⟩
  · exact ⟨firstFrom_job normal hint jobs, exists_visible_of_mem_left normal hint jobs⟩
  · have normal' : (s.run work).dirty.Normal := normal_run normal work
    have hint' : (s.run work).visible = some v := (visible_run works).trans hint
    have inside : o < size := below size (List.mem_append_right _ List.mem_cons_self)
    by_contra missed
    -- A byte that was not handed out still waits, so the job would hold a visible byte.
    have waits : o ∈ (s.run work).left size
        (((s.run work).plan size).1.inline ++ earlier.map Job.span) := by
      refine mem_left.mpr ⟨⟨?_, inside⟩, fun c hc taken => ?_⟩
      · refine (mem_dirty_run_or normal works (fun n hn => ?_) mem).resolve_right ?_
        · exact below n (List.mem_append_left _ hn)
        · rintro ⟨c, hc, taken⟩
          exact missed ⟨c, List.mem_append_left _ hc, taken⟩
      · exact missed ⟨c, List.mem_append_right _ hc, taken⟩
    obtain ⟨b, own, visible⟩ := exists_visible_of_mem_left normal' hint' jobs ⟨o, waits, seen⟩
    exact apart b own visible

/-- The first job starts in the middle of the waiting span, where the visible part does. The third
one is the first that lies apart from it. -/
theorem visible_bytes_before_the_rest :
    ∃ s : Scheduler,
      s = (start ⟨0, 0, 4, 2⟩ 0).run [.request [⟨0, 25⟩], .setVisible (some ⟨12, 18⟩)] ∧
      s.visible = some ⟨12, 18⟩ ∧ s.dirty = ⟨[⟨0, 25⟩]⟩ ∧
      (s.plan 25).1 = ⟨[], [⟨1, 0, 0, ⟨12, 16⟩⟩, ⟨2, 0, 0, ⟨16, 20⟩⟩]⟩ ∧
      FirstFrom 12 (s.left 25 [⟨12, 16⟩]) 16 ∧
      ((s.run [.plan 25, .complete 1]).plan 25).1 = ⟨[], [⟨3, 0, 0, ⟨20, 24⟩⟩]⟩ ∧
      ∀ o ∈ (⟨12, 18⟩ : Span), ∃ c ∈ s.spansAlong [.plan 25, .complete 1], o ∈ c := by
  obtain ⟨each, along⟩ := visible_bytes_go_first ⟨0, 0, 4, 2⟩ 0
    [.request [⟨0, 25⟩], .setVisible (some ⟨12, 18⟩)] ⟨12, 18⟩ (by decide)
  refine ⟨_, rfl, by decide, by decide, by decide, ?_, by decide, fun o seen => ?_⟩
  · exact (each 25 [⟨1, 0, 0, ⟨12, 16⟩⟩] ⟨2, 0, 0, ⟨16, 20⟩⟩ [] (by decide)).1
  · have apart : ∀ b ∈ (⟨20, 24⟩ : Span), b ∉ (⟨12, 18⟩ : Span) := by
      intro b own visible
      exact absurd (Nat.lt_of_le_of_lt own.1 visible.2) (by decide)
    have inside : ∀ n, SchedulerCall.plan n ∈ [.plan 25, .complete 1] ++ [.plan 25] → o < n := by
      intro n hn
      simp only [List.mem_append, List.mem_cons, SchedulerCall.plan.injEq, reduceCtorEq,
        List.not_mem_nil, or_false, or_self] at hn
      rw [hn]
      exact Nat.lt_trans seen.2 (by decide)
    have mem : o ∈ (⟨[⟨0, 25⟩]⟩ : SpanSet) :=
      ⟨⟨0, 25⟩, List.mem_cons_self, Nat.zero_le _, Nat.lt_trans seen.2 (by decide)⟩
    exact along [.plan 25, .complete 1] (by simp [SchedulerCall.Works]) 25 []
      ⟨3, 0, 0, ⟨20, 24⟩⟩ [] (by decide) apart o seen mem inside

end Scheduler

end Highlighting
