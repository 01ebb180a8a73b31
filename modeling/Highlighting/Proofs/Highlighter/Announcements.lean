import Highlighting.Proofs.Highlighter.Patches
import Highlighting.Proofs.Painting.Parts

/-!
What listeners are told of a call.

As long as the text stays the same, no category changes without notice. Of the runs that a call
announces, the last one over a byte has the category that the byte has after the call, and a byte
over which none is announced has the category of before (`Highlighter.changes_are_announced`). It
does not matter in which way the changes come about. Dropping the categories, merging what is ready
and doing work at once each announce what they write (`Highlighter.Announced`), and what is written
later is announced later.

Two calls are left out. An edit moves the categories along with the text, and detaching drops them
without notice.
-/

namespace Highlighting

open StyleRun

variable {m : Nat → Category} {o : Nat}

/-! ### The last run over an offset -/

namespace StyleRun

/-- The last of the runs that hold an offset. -/
def lastOver? (runs : List StyleRun) (o : Nat) : Option StyleRun :=
  runs.reverse.find? fun r => r.span.contains o

theorem lastOver?_cons (r : StyleRun) (rest : List StyleRun) (o : Nat) :
    lastOver? (r :: rest) o = (lastOver? rest o).or (if o ∈ r.span then some r else none) := by
  rw [lastOver?, List.reverse_cons, List.find?_append, ← lastOver?]
  by_cases own : o ∈ r.span
  · simp [Span.contains, own]
  · simp [Span.contains, own]

/-- The last run over an offset decides; without one the offset keeps what it had. -/
theorem overwrite_eq_lastOver? (m : Nat → Category) (runs : List StyleRun) (o : Nat) :
    overwrite m runs o = ((lastOver? runs o).map category).getD (m o) := by
  induction runs generalizing m with
  | nil => rfl
  | cons r rest ih =>
      rw [overwrite_cons, ih, lastOver?_cons]
      cases lastOver? rest o with
      | some last => rfl
      | none =>
          by_cases own : o ∈ r.span
          · simp [own]
          · simp [own]

theorem overwrite_congr {m' : Nat → Category} (same : m' o = m o) (runs : List StyleRun) :
    overwrite m' runs o = overwrite m runs o := by
  rw [overwrite_eq_lastOver?, overwrite_eq_lastOver?, same]

end StyleRun

/-- The runs of a notice are those of which it was given. -/
theorem Listeners.runs_notify (l : Listeners) (runs : List StyleRun) :
    (l.notify runs).flatMap Notice.runs = runs := by
  cases runs with
  | nil => rfl
  | cons r rest => exact List.append_nil _

/-- The calls that may write categories while the text stays the same. Detaching is not among them:
it drops all categories without notice. -/
def HighlighterCall.announces : HighlighterCall → Bool
  | .attach | .setLanguage _ | .setLanguageFrom _ _ | .setTheme _ | .setVisible _ | .invalidate _
  | .poll => true
  | _ => false

namespace Highlighter

variable {h h' h'' : Highlighter} {engine : ParsingEngine} {spans : List Span}

/-- From one moment to a later one over the same text, whatever was written was announced, to all
listeners, in runs inside the text. -/
structure Announced (h' h : Highlighter) : Prop where
  snapshot : h'.snapshot = h.snapshot
  listeners : h'.listeners = h.listeners
  told : ∃ notices, h'.outbox = h.outbox ++ notices ∧
    (∀ o < h.snapshot.size,
      h'.index.styleAt o = overwrite h.index.styleAt (notices.flatMap Notice.runs) o) ∧
    ∀ n ∈ notices, n.receivers = h.listeners.entries.map Listener.label ∧
      ∀ r ∈ n.runs, r.span.start < r.span.stop ∧ r.span.stop ≤ h.snapshot.size

theorem announced_of_same (snapshot : h'.snapshot = h.snapshot)
    (listeners : h'.listeners = h.listeners) (outbox : h'.outbox = h.outbox)
    (index : h'.index = h.index) : Announced h' h where
  snapshot := snapshot
  listeners := listeners
  told := ⟨[], by rw [outbox, List.append_nil], fun _ _ => by rw [index]; rfl, nofun⟩

theorem Announced.trans (second : Announced h'' h') (first : Announced h' h) :
    Announced h'' h where
  snapshot := second.snapshot.trans first.snapshot
  listeners := second.listeners.trans first.listeners
  told := by
    obtain ⟨early, outbox, written, inside⟩ := first.told
    obtain ⟨late, outbox', written', inside'⟩ := second.told
    rw [first.snapshot] at written' inside'
    rw [first.listeners] at inside'
    refine ⟨early ++ late, ?_, ?_, ?_⟩
    · rw [outbox', outbox, List.append_assoc]
    · intro o bounded
      rw [written' o bounded, List.flatMap_append, overwrite_append]
      exact overwrite_congr (written o bounded) _
    · intro n hn
      exact (List.mem_append.mp hn).elim (inside n) (inside' n)

/-! ### Patches -/

/-- An offset that is written once is stored, whatever is written after that. -/
theorem exists_holds_foldl_store (nonempty : ∀ s ∈ spans, s.start < s.stop) {x : StyleIndex}
    (stored : (∃ c, Holds x.runs o c) ∨ ∃ s ∈ spans, o ∈ s) :
    ∃ c, Holds (spans.foldl (fun x s => x.store s (h.classify s)) x).runs o c := by
  induction spans generalizing x with
  | nil => exact stored.resolve_right (by simp)
  | cons s rest ih =>
      obtain ⟨first, others⟩ := List.forall_mem_cons.mp nonempty
      have tiles := h.checkTiling_classify first
      have holds : ∀ c, Holds (x.store s (h.classify s)).runs o c ↔
          Holds (h.classify s) o c ∨ Holds x.runs o c ∧ o ∉ s := by
        intro c
        have replaced := StyleIndex.replace_of_tiling (x := x) tiles
        rw [StyleIndex.store, replaced]
        exact StyleIndex.holds_of_replace replaced
      apply ih others
      by_cases own : o ∈ s
      · exact Or.inl ⟨_, (holds _).mpr (Or.inl (holds_categoryAt tiles own))⟩
      · rcases stored with ⟨c, before⟩ | ⟨t, ht, later⟩
        · exact Or.inl ⟨c, (holds c).mpr (Or.inr ⟨before, own⟩)⟩
        · rcases List.mem_cons.mp ht with rfl | behind
          · exact absurd later own
          · exact Or.inr ⟨t, behind, later⟩

/-- A patch lies inside the text if all that is stored after it does. -/
theorem Patched.stop_le (patched : Patched spans h' h) {size : Nat}
    (inside : h'.index.Inside size) : ∀ s ∈ spans, s.stop ≤ size := by
  intro s hs
  have own := patched.nonempty s hs
  have last : s.stop - 1 ∈ s := ⟨Nat.le_sub_one_of_lt own, Nat.sub_one_lt_of_lt own⟩
  obtain ⟨c, r, hr, mem, -⟩ :=
    exists_holds_foldl_store (h := h) (x := h.index) patched.nonempty (Or.inr ⟨s, hs, last⟩)
  rw [← patched.index] at hr
  have bounded := (inside r hr).2
  have behind := mem.2
  omega

theorem Patched.announced (patched : Patched spans h' h)
    (inside : h'.index.Inside h.snapshot.size) : Announced h' h where
  snapshot := patched.setting.snapshot
  listeners := patched.listeners
  told := by
    refine ⟨_, patched.outbox, ?_, ?_⟩
    · intro o _
      rw [List.flatMap_assoc]
      simp only [Listeners.runs_notify]
      rw [overwrite_classify patched.nonempty, patched.styleAt]
    · intro n hn
      obtain ⟨s, hs, told⟩ := List.mem_flatMap.mp hn
      unfold Listeners.notify at told
      split at told
      · cases told
      · rw [List.mem_singleton.mp told]
        have tiles := h.checkTiling_classify (patched.nonempty s hs)
        refine ⟨rfl, fun r hr => ⟨(ascending_of_checkTiling tiles).nonempty r hr, ?_⟩⟩
        exact ((StyleIndex.bounds_of_checkTiling tiles).2 r hr).2.trans
          (patched.stop_le inside s hs)

/-! ### The parts of a call -/

variable {x : Highlighter}

/-- Nothing was written since, whatever else was set. -/
theorem Announced.of_same (since : Announced h' h) (snapshot : x.snapshot = h'.snapshot)
    (listeners : x.listeners = h'.listeners) (outbox : x.outbox = h'.outbox)
    (index : x.index = h'.index) : Announced x h :=
  (announced_of_same snapshot listeners outbox index).trans since

/-- Work is handed out for what was announced so far. -/
theorem Announced.pump (since : Announced x h) (sound : x.scheduler.Sound)
    (idle : x.parsePending = false) (inside : x.pump.index.Inside h.snapshot.size) :
    Announced x.pump h := by
  obtain ⟨spans, patched⟩ := patched_pump sound idle
  rw [← since.snapshot] at inside
  exact (patched.announced inside).trans since

theorem Announced.reconcile (since : Announced x h) (sound : x.scheduler.Sound)
    (inside : (x.reconcile engine).index.Inside h.snapshot.size) :
    Announced (x.reconcile engine) h := by
  by_cases attached : x.attached = true
  · obtain ⟨language, log, phase, dirty, eq, sound', -⟩ := upToDate_eq engine x
    rw [reconcile_eq attached, eq] at inside ⊢
    exact Announced.pump (since.of_same rfl rfl rfl rfl) (sound' sound) (by simp [parsePending])
      inside
  · rw [Highlighter.reconcile, if_neg attached]
    exact since

theorem Announced.startOver (since : Announced x h) (sound : x.scheduler.Sound)
    (inside : (x.startOver engine).index.Inside h.snapshot.size) :
    Announced (x.startOver engine) h :=
  Announced.reconcile (since.of_same rfl rfl rfl rfl) (sound_queueAll sound) inside

/-- All categories are dropped, and the whole text is announced as unclassified. -/
theorem announced_dropped (h : Highlighter) (language : Option Language) :
    Announced (h.withLanguage language) h := by
  unfold withLanguage
  by_cases empty : h.snapshot.whole.isEmpty = true
  · have none : ∀ o, ¬o < h.snapshot.size := fun o inside =>
      Span.isEmpty_iff.mp empty o ⟨Nat.zero_le o, inside⟩
    rw [announceUnclassified, if_pos empty]
    exact ⟨rfl, rfl, [], (List.append_nil _).symm, fun o inside => absurd inside (none o), nofun⟩
  · have nonempty : 0 < h.snapshot.size :=
      Nat.pos_of_ne_zero (by simpa [Span.isEmpty, Snapshot.whole] using empty)
    rw [announceUnclassified, if_neg empty]
    refine ⟨rfl, rfl, _, rfl, ?_, ?_⟩
    · intro o inside
      have whole : o ∈ h.snapshot.whole := ⟨Nat.zero_le o, inside⟩
      rw [Listeners.runs_notify, overwrite_cons]
      exact (if_pos whole).symm
    · intro n hn
      rw [List.mem_singleton.mp hn]
      exact ⟨rfl, List.forall_mem_singleton.mpr ⟨nonempty, Nat.le_refl _⟩⟩

theorem announced_setLanguage (source : Option Grammar)
    (inside : (h.setLanguage engine source).2.index.Inside h.snapshot.size) :
    Announced (h.setLanguage engine source).2 h := by
  refine (announced_dropped h (h.languageFor source).2).startOver ?_ inside
  obtain ⟨notices, told⟩ := withLanguage_eq h (h.languageFor source).2
  rw [told]
  exact Scheduler.sound_reset _ _

/-- What is ready is merged. -/
theorem Balanced.announced_collectResults (balanced : h.Balanced) :
    Announced h.collectResults.2 h := by
  obtain ⟨collected, same⟩ := balanced.collectResults
  obtain ⟨spans, patched⟩ := balanced.ledger.patched_collectResults
  apply patched.announced
  rw [← same.snapshot, ← collected.size]
  exact collected.ledger.inside

/-! ### The calls -/

theorem snapshot_call_of_announces {c : HighlighterCall} (announces : c.announces = true) :
    (h.call engine c).snapshot = h.snapshot := by
  rw [snapshot_call]
  cases c with
  | textDidChange snapshot edits => cases announces
  | _ => rfl

/-- What a call leaves in the index lies inside the text, so its patches do. -/
theorem Balanced.inside_call (balanced : h.Balanced) {c : HighlighterCall}
    (announces : c.announces = true) : (h.call engine c).index.Inside h.snapshot.size := by
  have after : (h.call engine c).Balanced := (balanced.turn c).balanced
  rw [← snapshot_call_of_announces announces, ← after.size]
  exact after.ledger.inside

/-- Each call writes in the ways above only, one after another. -/
theorem Balanced.announced_call (balanced : h.Balanced) {c : HighlighterCall}
    (announces : c.announces = true) : Announced (h.call engine c) h := by
  have inside : (h.call engine c).index.Inside h.snapshot.size := balanced.inside_call announces
  have sound : h.scheduler.Sound := balanced.ledger.sound
  -- What a call does before it plans writes nothing, so its changes come from the plan alone.
  have unchanged : Announced h h := announced_of_same rfl rfl rfl rfl
  cases c with
  | attach =>
      dsimp only [Highlighter.call] at inside ⊢
      rw [attach_eq] at inside ⊢
      by_cases attached : h.attached = true
      · rw [if_pos attached]
        exact unchanged
      · rw [if_neg attached] at inside ⊢
        exact Announced.startOver (unchanged.of_same rfl rfl rfl rfl) sound inside
  | setLanguage source => exact announced_setLanguage source inside
  | setLanguageFrom registry name => exact announced_setLanguage _ inside
  | setTheme theme =>
      exact Announced.reconcile (unchanged.of_same rfl rfl rfl rfl)
        (sound_requeue (h := h.withTheme theme) sound none) inside
  | setVisible visible =>
      dsimp only [Highlighter.call, setVisible] at inside ⊢
      by_cases attached : (h.withVisible visible).attached = true
      · rw [if_pos attached] at inside ⊢
        exact Announced.pump (unchanged.of_same rfl rfl rfl rfl) (sound.setVisible _)
          balanced.parsePending_eq_false inside
      · rw [if_neg attached]
        exact unchanged.of_same rfl rfl rfl rfl
  | invalidate span =>
      exact Announced.reconcile (unchanged.of_same rfl rfl rfl rfl) (sound_requeue sound span)
        inside
  | poll =>
      exact balanced.announced_collectResults.reconcile balanced.collectResults.1.ledger.sound
        inside
  | detach | textDidChange | workerStep | subscribe | unsubscribe | collect => cases announces

/-- Every change of a category by a call that leaves the text alone is announced: each byte has
the category of the last run announced over it, or that of before. All listeners are told, in runs
inside the text. -/
theorem changes_are_announced (engine : ParsingEngine) (snapshot : Snapshot) (theme : Theme)
    (config : HighlighterConfig) (calls : List HighlighterCall) (c : HighlighterCall)
    (announces : c.announces = true) :
    let h := (make snapshot theme config).run engine calls
    ∃ notices, (h.call engine c).outbox = h.outbox ++ notices ∧
      (∀ o < h.snapshot.size, (h.call engine c).styleAt o =
        ((lastOver? (notices.flatMap Notice.runs) o).map StyleRun.category).getD (h.styleAt o)) ∧
      ∀ n ∈ notices, n.receivers = h.listeners.entries.map Listener.label ∧
        ∀ r ∈ n.runs, r.span.start < r.span.stop ∧ r.span.stop ≤ h.snapshot.size := by
  intro h
  have balanced : h.Balanced := (balanced_make snapshot theme config).run calls
  have after : (h.call engine c).Balanced := (balanced.turn c).balanced
  obtain ⟨notices, outbox, written, told⟩ := (balanced.announced_call announces).told
  refine ⟨notices, outbox, fun o inside => ?_, told⟩
  rw [after.styleAt_eq, balanced.styleAt_eq, written o inside, overwrite_eq_lastOver?]

/-- A poll does the work that was put off: the word is painted, and the byte behind it is announced
as it was. -/
theorem poll_announces_a_word :
    let engine : ParsingEngine := fun _ _ _ => ⟨[⟨⟨0, 2⟩, 0, 0, 0⟩], []⟩
    let calls : List HighlighterCall :=
      [.subscribe "view", .setLanguage (some ⟨"words", 14, some ⟨["word"], [[]]⟩, [100]⟩), .attach]
    ∃ h : Highlighter,
      h = (make ⟨0, .ofString "ab\n"⟩ ⟨[("word", 7)]⟩ ⟨⟨0, 0, 64, 1⟩, 2, false⟩).run engine calls ∧
      HighlighterCall.poll.announces = true ∧ h.styleAt 0 = .unclassified ∧
      (h.call engine .poll).styleAt 0 = .styled 7 ∧
      ∃ notices, (h.call engine .poll).outbox = h.outbox ++ notices ∧
        (∀ o < h.snapshot.size, (h.call engine .poll).styleAt o =
          ((lastOver? (notices.flatMap Notice.runs) o).map StyleRun.category).getD (h.styleAt o)) ∧
        ∀ n ∈ notices, n.receivers = h.listeners.entries.map Listener.label ∧
          ∀ r ∈ n.runs, r.span.start < r.span.stop ∧ r.span.stop ≤ h.snapshot.size := by
  intro engine calls
  exact ⟨_, rfl, rfl, by cbv, by cbv,
    changes_are_announced engine ⟨0, .ofString "ab\n"⟩ ⟨[("word", 7)]⟩ ⟨⟨0, 0, 64, 1⟩, 2, false⟩
      calls .poll rfl⟩

end Highlighter

end Highlighting
