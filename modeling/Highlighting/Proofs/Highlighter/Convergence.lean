import Highlighting.Proofs.Batch
import Highlighting.Proofs.Highlighter.Patches
import Mathlib

/-!
Convergence: no byte keeps a wrong category unnoticed.

At any time each byte of the text waits, or a live job has promised it, or it reads the category
that classification gives it with the tree and the rules of the moment. In the middle of a call the
tree is that of an older text, and the edits since are pending in the log; then a byte reads what
the tree gives the byte that it comes from (`Settled`), and the pending edits lead from the text of
the tree to the new one (`Led`).

Of the parser two things are assumed. That the captures for a span are those of the whole text whose
node meets it is part of what a tree is. That a tree which was parsed from an older one says the
same of every byte outside the changed spans and the edited lines is `ParsingEngine.Faithful`.
-/

namespace Highlighting

namespace ParsingEngine

/-- The trees that the engine makes in a grammar, from scratch or from another one along edits. -/
inductive Makes (engine : ParsingEngine) (g : Grammar) : SyntaxTree → Prop where
  | afresh (target : Snapshot) : Makes engine g ⟨target, (engine g none target).captures⟩
  | along {t : SyntaxTree} {edits : List Edit} {target : Snapshot} :
      Makes engine g t → t.snapshot.follow? edits = some target →
      Makes engine g ⟨target, (engine g (some (t, edits)) target).captures⟩

/-- What is assumed of a parse along edits: outside the changed spans and the lines of the edited
bytes, each byte has the category that the byte it comes from had in the tree of before. -/
def Faithful (engine : ParsingEngine) : Prop :=
  ∀ (g : Grammar) (theme : Theme) (t : SyntaxTree) (edits : List Edit) (target : Snapshot),
    engine.Makes g t → t.snapshot.follow? edits = some target →
    ∀ o < target.size,
      (∀ s ∈ (engine g (some (t, edits)) target).changed, o ∉ s) →
      (∀ s ∈ (editedSpans edits).spans, o ∉ target.text.expandToLines s) →
      ∀ p, preimageBefore? edits o = some p →
        SyntaxTree.categoryAt ⟨target, (engine g (some (t, edits)) target).captures⟩
          (.make g theme) o = t.categoryAt (.make g theme) p

end ParsingEngine

namespace Highlighter

variable {h h' : Highlighter} {engine : ParsingEngine} {o : Nat}

/-! ### What is kept -/

/-- What a byte reads if it does not wait: the category that the tree gives the byte that it comes
from, and nothing if it was inserted after the tree was parsed. -/
def expected (h : Highlighter) (o : Nat) : Category :=
  match preimageBefore? h.log.pending o with
  | none => .unclassified
  | some p => h.categoryAt p

/-- Each byte waits, or is promised, or reads what is expected. -/
def Settled (h : Highlighter) : Prop :=
  ∀ o < h.log.size, h.scheduler.Owes o ∨ h.index.styleAt o = h.expected o

/-- The engine made the tree, and the pending edits lead from its text to the text. -/
def Led (engine : ParsingEngine) (h : Highlighter) : Prop :=
  ∀ l, h.language = some l → ∀ t, l.keeper.tree = some t →
    engine.Makes l.rules.grammar t ∧ t.snapshot.follow? h.log.pending = some h.snapshot

theorem expected_of_drained (drained : h.log.pending = []) : h.expected o = h.categoryAt o := by
  unfold expected
  rw [drained]
  rfl

theorem SameSetting.expected (same : SameSetting h' h) : h'.expected = h.expected := by
  funext o
  unfold Highlighter.expected
  rw [same.log, same.categoryAt]

theorem SameSetting.led (same : SameSetting h' h) (led : h.Led engine) : h'.Led engine := by
  unfold Led
  rw [same.language, same.log, same.snapshot]
  exact led

/-- Nothing is settled but what the setting, the index and the jobs say. -/
theorem Settled.of_sameJobs (settled : h.Settled) (setting : SameSetting h' h)
    (jobs : SameJobs h' h) : h'.Settled := by
  intro o inside
  rw [setting.log] at inside
  rw [setting.expected, jobs.index]
  apply (settled o inside).imp_left
  intro owed
  rcases owed with waits | promised
  · exact Or.inl (jobs.dirty o waits)
  · rw [← jobs.live] at promised
    exact Or.inr promised

/-! ### Merging and handing out work -/

/-- What is written for owed bytes is right. -/
theorem Patched.settled {spans : List Span} (patched : Patched spans h' h)
    (drained : h.log.pending = []) (size : h.log.size = h.snapshot.size) (settled : h.Settled) :
    h'.Settled := by
  intro o inside
  rw [patched.setting.log] at inside
  rw [patched.setting.expected, patched.styleAt, expected_of_drained drained]
  by_cases written : ∃ s ∈ spans, o ∈ s
  · rw [if_pos written]
    exact Or.inr rfl
  · rw [if_neg written, ← expected_of_drained drained]
    apply (settled o inside).imp_left
    exact fun owed => ((patched.owes o (size ▸ inside)).mp owed).resolve_right written

theorem Settled.collectResults (settled : h.Settled) (balanced : h.Balanced) :
    h.collectResults.2.Settled := by
  obtain ⟨spans, patched⟩ := balanced.ledger.patched_collectResults
  exact patched.settled balanced.drained balanced.size settled

theorem Settled.pump (settled : h.Settled) (balanced : h.Balanced) : h.pump.Settled := by
  obtain ⟨spans, patched⟩ :=
    patched_pump balanced.ledger.sound balanced.parsePending_eq_false
  exact patched.settled balanced.drained balanced.size settled

/-! ### Edits -/

/-- After an edit a byte that was moved reads what it read before, unless its run was dropped and it
waits; a byte that was inserted reads nothing. -/
theorem Settled.takeEdit (settled : h.Settled) (ledger : h.Ledger) {e : Edit}
    (taken : h.takeEdit? e = some h') : h'.Settled := by
  intro o inside
  have expected : h'.expected o = match (e.splice.preimage? o).bind
      (preimageBefore? h.log.pending) with
    | none => .unclassified
    | some p => h.categoryAt p := by
    obtain ⟨-, -, rfl⟩ := takeEdit?_eq_some taken
    unfold Highlighter.expected
    dsimp only
    rw [preimageBefore?_concat]
    rfl
  rw [expected]
  cases moved : e.splice.preimage? o with
  | none => exact Or.inr (styleAt_takeEdit_fresh taken moved)
  | some p =>
      obtain ⟨before, owed | ⟨unowed, kept⟩⟩ := ledger.styleAt_takeEdit taken inside moved
      · exact Or.inl owed
      · right
        rw [kept, (settled p before).resolve_left unowed]
        rfl

theorem Settled.takeEdits (settled : h.Settled) (ledger : h.Ledger) (edits : List Edit) :
    (h.takeEdits edits).2.Settled := by
  exact (takeEdits_keeps (P := fun x => x.Settled ∧ x.Ledger) (fun _ _ _ taken kept =>
    ⟨kept.1.takeEdit kept.2 taken, (kept.2.takeEdit taken).1⟩) ⟨settled, ledger⟩).1

/-- The edits of a batch that lines up are pending, and lead to the text that they produce. -/
theorem follow?_takeEdits {edits : List Edit} (linedUp : (h.takeEdits edits).1 = true)
    {first current other reached : Snapshot}
    (follows : first.follow? h.log.pending = some current)
    (revision : current.revision = h.log.revision) (text : other.text = current.text)
    (replayed : other.replay edits = .ok reached) :
    first.follow? (h.takeEdits edits).2.log.pending =
      some ⟨(h.takeEdits edits).2.log.revision, reached.text⟩ := by
  induction edits generalizing h current other with
  | nil =>
      have same : other = reached := Except.ok.inj replayed
      change first.follow? h.log.pending = some ⟨h.log.revision, reached.text⟩
      rw [follows, ← revision, ← same, text]
  | cons e rest ih =>
      obtain ⟨h', taken, eq⟩ := takeEdits_cons linedUp
      rw [eq] at linedUp ⊢
      cases applied : other.apply e with
      | error fault =>
          rw [Snapshot.replay, applied] at replayed
          cases replayed
      | ok next =>
          rw [Snapshot.replay, applied] at replayed
          have onwards : next.replay rest = .ok reached := replayed
          obtain ⟨-, -, rfl⟩ := takeEdit?_eq_some taken
          -- The log numbers the edit itself, so the two snapshots agree in their text alone.
          have stamped : current.apply (h.log.stamp e) =
              .ok ⟨h.log.revision + 1, next.text⟩ := by
            have changed : current.text.apply e = .ok next.text := by
              rw [← text]
              exact (Snapshot.text_of_apply applied).1
            unfold Snapshot.apply
            change (current.text.apply e).bind _ = _
            rw [changed]
            rfl
          have further : first.follow? (h.log.pending ++ [h.log.stamp e]) =
              some ⟨h.log.revision + 1, next.text⟩ := by
            rw [Snapshot.follow?_append, follows, Option.bind_some, Snapshot.follow?, if_pos,
              stamped]
            · rfl
            · rw [revision]
              rfl
          exact ih linedUp further rfl (Eq.refl next.text) onwards

/-! ### Parsing -/

theorem mem_changedBytes {snapshot : Snapshot} {changed : List Span} {edits : List Edit} :
    (∃ s ∈ changedBytes snapshot changed edits, o ∈ s) ↔
      (∃ s ∈ changed, o ∈ s) ∨
        ∃ s ∈ (editedSpans edits).spans, o ∈ snapshot.text.expandToLines s := by
  rw [changedBytes, ← SpanSet.mem_iff, SpanSet.mem_insertAll, SpanSet.mem_ofList]
  simp only [List.mem_map, exists_exists_and_eq_and]
  exact or_comm

/-- Empty spans hold no byte, so it does not matter that they are left out. -/
theorem mem_changed_parseFrom {t : SyntaxTree} {parse : Parser} {edits : List Edit}
    {target : Snapshot} :
    (∃ s ∈ (TreeKeeper.parseFrom t parse edits target).changed, o ∈ s) ↔
      ∃ s ∈ (parse (some (t, edits)) target).changed, o ∈ s := by
  refine exists_congr fun s => and_congr_left fun mem => ?_
  refine List.mem_filter.trans (and_iff_left ?_)
  rw [Bool.not_eq_true']
  exact Bool.eq_false_iff.mpr fun empty => Span.isEmpty_iff.mp empty o mem

/-- A byte that does not have to be classified again after a parse along edits comes from a byte of
the old text, and has its category. -/
theorem exists_preimage_of_unchanged (faithful : engine.Faithful) {g : Grammar} (theme : Theme)
    {t : SyntaxTree} {edits : List Edit} {target : Snapshot} (made : engine.Makes g t)
    (follows : t.snapshot.follow? edits = some target) (inside : o < target.size)
    (unchanged : ¬∃ s ∈ changedBytes target
      (TreeKeeper.parseFrom t (engine g) edits target).changed edits, o ∈ s) :
    ∃ p, preimageBefore? edits o = some p ∧
      (TreeKeeper.parseFrom t (engine g) edits target).tree.categoryAt (.make g theme) o =
        t.categoryAt (.make g theme) p := by
  rw [mem_changedBytes, mem_changed_parseFrom, not_or] at unchanged
  obtain ⟨changed, edited⟩ := unchanged
  cases moved : preimageBefore? edits o with
  | none =>
      obtain ⟨s, hs, mem⟩ := mem_editedSpans (Snapshot.upright_of_follow? follows) moved
      exact absurd ⟨s, hs, Text.mem_expandToLines mem inside⟩ edited
  | some p =>
      refine ⟨p, rfl, faithful g theme t edits target made follows o inside ?_ ?_ p moved⟩
      · exact fun s hs mem => changed ⟨s, hs, mem⟩
      · exact fun s hs mem => edited ⟨s, hs, mem⟩

/-- What a parse says is different waits after it; all other bytes have the category that the byte
they come from had. -/
theorem Settled.reparsed (settled : h.Settled) (led : h.Led engine) (faithful : engine.Faithful)
    (size : h.log.size = h.snapshot.size) {l : Language} (language : h.language = some l)
    (rules : l.rules = .make l.rules.grammar h.theme) : (h.reparsed engine l).Settled := by
  have basis : ∀ t, l.keeper.tree = some t → h.categoryAt = t.categoryAt l.rules := by
    intro t tree
    unfold Highlighter.categoryAt basis?
    rw [language]
    dsimp only [Option.bind_some]
    rw [tree]
    rfl
  intro o inside
  have within : o < h.snapshot.size := size ▸ inside
  rw [expected_of_drained rfl]
  have owed : (h.reparsed engine l).scheduler.Owes o ↔ h.scheduler.Owes o ∨
      ∃ s ∈ changedBytes h.snapshot (l.keeper.outcome (engine l.rules.grammar) h.log.pending
        h.snapshot).changed h.log.pending, o ∈ s := Scheduler.owes_request
  have index : (h.reparsed engine l).index = h.index := rfl
  have category : (h.reparsed engine l).categoryAt o =
      (l.keeper.outcome (engine l.rules.grammar) h.log.pending h.snapshot).tree.categoryAt
        l.rules o := rfl
  rw [owed, index, category]
  rcases TreeKeeper.outcome_cases l.keeper (engine l.rules.grammar) h.log.pending h.snapshot with
    eq | ⟨t, tree, ⟨⟨drained, -⟩, eq⟩ | ⟨-, eq⟩⟩
  · -- The whole text waits after a parse from scratch.
    rw [eq, mem_changedBytes]
    left
    right
    left
    exact ⟨h.snapshot.whole, List.mem_cons_self, Nat.zero_le o, within⟩
  · rw [eq]
    apply (settled o inside).imp Or.inl
    intro reads
    rw [reads, expected_of_drained drained, basis t tree]
  · rw [eq]
    obtain ⟨made, follows⟩ := led l language t tree
    by_cases requested : ∃ s ∈ changedBytes h.snapshot (TreeKeeper.parseFrom t
        (engine l.rules.grammar) h.log.pending h.snapshot).changed h.log.pending, o ∈ s
    · exact Or.inl (Or.inr requested)
    · apply (settled o inside).imp Or.inl
      intro reads
      obtain ⟨p, moved, kept⟩ :=
        exists_preimage_of_unchanged faithful h.theme made follows within requested
      rw [← rules] at kept
      rw [reads, kept, ← basis t tree]
      unfold expected
      rw [moved]

/-- Bringing the tree up to the text settles what the edits had left open. -/
theorem Settled.upToDate (settled : h.Settled) (led : h.Led engine) (faithful : engine.Faithful)
    (size : h.log.size = h.snapshot.size)
    (rules : ∀ l, h.language = some l → l.rules = .make l.rules.grammar h.theme)
    (due : ∀ l, h.language = some l → h.parsePending = true ∨ h.log.pending = []) :
    (h.upToDate engine).Settled := by
  unfold Highlighter.upToDate Highlighter.parsed
  cases language : h.language with
  | none =>
      have plain : ∀ o, h.categoryAt o = .unclassified := by
        intro o
        unfold Highlighter.categoryAt basis?
        rw [language]
        rfl
      intro o inside
      rw [expected_of_drained rfl]
      apply (settled o inside).imp_right
      intro reads
      have nothing : h.expected o = .unclassified := by
        unfold expected
        split
        · rfl
        · exact plain _
      exact reads.trans (nothing.trans (plain o).symm)
  | some l =>
      dsimp only
      split
      · intro o inside
        exact settled.reparsed led faithful size language (rules l language) o inside
      · rename_i idle
        intro o inside
        rw [expected_of_drained rfl]
        apply (settled o inside).imp_right
        intro reads
        exact reads.trans (expected_of_drained ((due l language).resolve_left idle))

/-- The new tree was made by the engine for the text. -/
theorem Led.upToDate (led : h.Led engine)
    (due : ∀ l, h.language = some l → h.parsePending = true ∨ h.log.pending = []) :
    (h.upToDate engine).Led engine := by
  unfold Highlighter.upToDate Highlighter.parsed
  cases language : h.language with
  | none =>
      intro l hl
      rw [language] at hl
      cases hl
  | some l =>
      dsimp only
      split
      · intro l' hl t tree
        cases hl
        cases tree
        dsimp only
        rcases TreeKeeper.outcome_cases l.keeper (engine l.rules.grammar) h.log.pending
          h.snapshot with eq | ⟨t, tree, ⟨⟨drained, -⟩, eq⟩ | ⟨-, eq⟩⟩
        · rw [eq]
          exact ⟨.afresh h.snapshot, rfl⟩
        · rw [eq]
          obtain ⟨made, follows⟩ := led l language t tree
          rw [drained] at follows
          exact ⟨made, follows⟩
        · rw [eq]
          obtain ⟨made, follows⟩ := led l language t tree
          exact ⟨.along made follows, rfl⟩
      · rename_i idle
        intro l' hl t tree
        obtain ⟨made, follows⟩ := led l' hl t tree
        rw [(due l language).resolve_left idle] at follows
        exact ⟨made, follows⟩

theorem Settled.reconcile (settled : h.Settled) (led : h.Led engine) (faithful : engine.Faithful)
    (prepared : h.Prepared)
    (due : ∀ l, h.language = some l → h.parsePending = true ∨ h.log.pending = []) :
    (h.reconcile engine).Settled ∧ (h.reconcile engine).Led engine := by
  have balanced : (h.upToDate engine).Balanced := prepared.upToDate
  have same := sameSetting_pump (h.upToDate engine)
  rw [reconcile_eq prepared.attached]
  constructor
  · exact (settled.upToDate led faithful prepared.size prepared.rules due).pump balanced
  · exact same.led (led.upToDate due)

/-! ### The calls -/

/-- Callers are honest: a batch that lines up with the new text in revisions and length leads to it
from the text of before. -/
def Honest (h : Highlighter) : HighlighterCall → Prop
  | .textDidChange snapshot edits =>
    (h.takeEdits edits).1 = true → (h.takeEdits edits).2.agreesWith snapshot = true →
      ∃ reached, h.snapshot.replay edits = .ok reached ∧ reached.text = snapshot.text
  | _ => True

theorem SameSetting.honest (same : SameSetting h' h) {c : HighlighterCall} (honest : h.Honest c) :
    h'.Honest c := by
  cases c with
  | textDidChange snapshot edits =>
      obtain ⟨linedUp, log⟩ := takeEdits_congr same.log edits
      intro taken agrees
      rw [linedUp] at taken
      unfold agreesWith at agrees
      rw [log] at agrees
      rw [same.snapshot]
      exact honest taken agrees
  | _ => trivial

/-- While nothing is held, nothing is expected. -/
theorem settled_of_released (released : h.Released) (drained : h.log.pending = []) :
    h.Settled ∧ h.Led engine := by
  have tree : ∀ l, h.language = some l → l.keeper.tree = none := by
    intro l language
    have none := released.tree
    unfold Highlighter.tree? at none
    rwa [language] at none
  constructor
  · intro o _
    right
    rw [released.index, expected_of_drained drained]
    unfold Highlighter.categoryAt basis?
    cases language : h.language with
    | none => rfl
    | some l =>
        dsimp only [Option.bind_some]
        rw [tree l language]
        rfl
  · intro l language t held
    rw [tree l language] at held
    cases held

theorem Restarted.led {x : Highlighter} (restarted : Restarted x h) (led : h.Led engine)
    (drained : h.log.pending = []) : x.Led engine := by
  intro l language t held
  have tree : x.tree? = some t := by
    unfold tree?
    rw [language]
    exact held
  rcases restarted.tree with none | same
  · rw [none] at tree
    cases tree
  · obtain ⟨l', language', grammar, keeper⟩ := same.language l language
    obtain ⟨made, follows⟩ := led l' language' t (keeper ▸ held)
    rw [drained] at follows
    rw [restarted.drained, same.snapshot, grammar]
    exact ⟨made, follows⟩

/-- The pending edits of a batch that was followed lead to the new text. -/
theorem Followed.led {snapshot : Snapshot} {edits : List Edit} {x : Highlighter}
    (followed : Followed snapshot edits x h) (prepared : x.Prepared) (balanced : h.Balanced)
    (led : h.Led engine) (honest : h.Honest (.textDidChange snapshot edits)) : x.Led engine := by
  obtain ⟨linedUp, rfl⟩ := followed
  have revision : (h.takeEdits edits).2.log.revision = snapshot.revision := prepared.revision
  have size : (h.takeEdits edits).2.log.size = snapshot.size := prepared.size
  obtain ⟨reached, replayed, text⟩ := honest linedUp (by simp [agreesWith, revision, size])
  obtain ⟨log, scheduler, index, eq, -⟩ := takeEdits_eq h edits
  have language : (h.takeEdits edits).2.language = h.language := by
    rw [eq]
  intro l hl t held
  obtain ⟨made, follows⟩ := led l (language ▸ hl) t held
  refine ⟨made, ?_⟩
  change t.snapshot.follow? (h.takeEdits edits).2.log.pending = some snapshot
  rw [follow?_takeEdits linedUp follows balanced.revision.symm rfl replayed, revision, text]

theorem Turn.settled {c : HighlighterCall} {b : Bool} (turn : Turn engine h c b h')
    (balanced : h.Balanced) (settled : h.Settled) (led : h.Led engine)
    (faithful : engine.Faithful) (honest : h.Honest c) : h'.Settled ∧ h'.Led engine := by
  cases turn with
  | quiet _ same jobs => exact ⟨settled.of_sameJobs same jobs, same.led led⟩
  | released balanced' detached =>
      exact settled_of_released (balanced'.released detached) balanced'.drained
  | @restarted _ _ x prepared restarted =>
      -- All of the text waits, so nothing is claimed of any byte.
      have waiting : x.Settled := by
        intro o inside
        rw [prepared.size] at inside
        exact Or.inl (Or.inl (restarted.queued o inside))
      apply waiting.reconcile (restarted.led led balanced.drained) faithful prepared
      intro l _
      exact Or.inr restarted.drained
  | resumed prepared same jobs =>
      apply (settled.of_sameJobs same jobs).reconcile (same.led led) faithful prepared
      intro l _
      rw [same.log]
      exact Or.inr balanced.drained
  | pumped balanced' _ same jobs =>
      exact ⟨(settled.of_sameJobs same jobs).pump balanced',
        ((sameSetting_pump _).trans same).led led⟩
  | @followed snapshot edits x prepared followed =>
      have taken : x.Settled := by
        rw [followed.eq]
        exact settled.takeEdits balanced.ledger edits
      -- Only here is an honest caller needed: the tree of before has to lead to the new text.
      have led' := followed.led prepared balanced led honest
      apply taken.reconcile led' faithful prepared
      intro l language
      have due : x.parseDue = true := by
        rw [followed.eq]
      exact Or.inl (prepared.parsePending_eq_true due language)

/-! ### Along every run -/

/-- Callers are honest all along a run. -/
def HonestRun (engine : ParsingEngine) (h : Highlighter) : List HighlighterCall → Prop
  | [] => True
  | c :: rest => h.Honest c ∧ HonestRun engine (h.call engine c) rest

theorem Settled.run (settled : h.Settled) (led : h.Led engine) (balanced : h.Balanced)
    (faithful : engine.Faithful) {calls : List HighlighterCall}
    (honest : HonestRun engine h calls) :
    (h.run engine calls).Settled ∧ (h.run engine calls).Led engine := by
  induction calls generalizing h with
  | nil => exact ⟨settled, led⟩
  | cons c rest ih =>
      obtain ⟨first, others⟩ := honest
      have turn : Turn engine (h.delivered c) c (h.supersedes c) (h.call engine c) :=
        balanced.turn c
      obtain ⟨balanced', same⟩ := balanced.delivered c
      have delivered : (h.delivered c).Settled := by
        cases c with
        | textDidChange snapshot edits =>
            exact settled.collectResults balanced
        | poll => exact settled.collectResults balanced
        | _ => exact settled
      obtain ⟨settled', led'⟩ :=
        turn.settled balanced' delivered (same.led led) faithful (same.honest first)
      exact ih settled' led' turn.balanced others

/-- Highlighting converges: after every run each byte of the text waits, or a live job has promised
it, or it reads just the category that classification gives it now, in any span that holds it. -/
theorem converges (engine : ParsingEngine) (faithful : engine.Faithful) (snapshot : Snapshot)
    (theme : Theme) (config : HighlighterConfig) (calls : List HighlighterCall)
    (honest : HonestRun engine (make snapshot theme config) calls) :
    let h := (make snapshot theme config).run engine calls
    ∀ o < h.snapshot.size,
      o ∈ h.scheduler.dirty ∨ (∃ j ∈ h.scheduler.liveJobs, o ∈ j.span) ∨
        ∀ s : Span, o ∈ s → h.styleAt o = StyleRun.categoryAt (h.classify s) o := by
  intro h o inside
  have start := balanced_make snapshot theme config
  obtain ⟨settled, led⟩ : (make snapshot theme config).Settled ∧
      (make snapshot theme config).Led engine :=
    settled_of_released (start.released rfl) start.drained
  have final : h.Settled := (settled.run led start faithful honest).1
  have balanced : h.Balanced := start.run calls
  rcases final o (balanced.size ▸ inside) with owed | reads
  · rcases owed with waits | promised
    · exact Or.inl waits
    · exact Or.inr (Or.inl promised)
  · right
    right
    intro s mem
    rw [h.categoryAt_classify mem, styleAt, if_neg (Nat.not_le.mpr inside), reads]
    exact expected_of_drained balanced.drained

/-! ### A run -/

/-- An engine that captures the first two bytes of every text. Edits behind them change nothing. -/
def headEngine : ParsingEngine := fun _ before target =>
  ⟨[⟨⟨0, 2⟩, 0, 0, 0⟩], match before with
    | none => [target.whole]
    | some (_, edits) =>
      if edits.all fun e => 2 ≤ e.span.start then [] else [target.whole]⟩

theorem preimageBefore?_behind {edits : List Edit} {limit p : Nat}
    (upright : ∀ e ∈ edits, e.span.start ≤ e.span.stop) (behind : ∀ e ∈ edits, limit ≤ e.span.start)
    (moved : preimageBefore? edits o = some p) : o < limit ↔ p < limit := by
  induction edits generalizing p with
  | nil =>
      cases moved
      exact Iff.rfl
  | cons e rest ih =>
      obtain ⟨own, others⟩ := List.forall_mem_cons.mp upright
      obtain ⟨first, later⟩ := List.forall_mem_cons.mp behind
      obtain ⟨q, before, last⟩ := Option.bind_eq_some_iff.mp moved
      rw [ih others later before]
      rcases Splice.preimage?_eq_some_iff.mp last with ⟨left, rfl⟩ | ⟨right, rfl⟩
      · exact Iff.rfl
      · simp only [Edit.splice] at right ⊢
        omega

theorem faithful_headEngine : ParsingEngine.Faithful headEngine := by
  intro g theme t edits target made follows o inside changed _ p moved
  have captures : t.captures = [⟨⟨0, 2⟩, 0, 0, 0⟩] := by
    cases made with
    | afresh target => rfl
    | along _ _ => rfl
  have behind : ∀ e ∈ edits, 2 ≤ e.span.start := by
    by_cases all : edits.all (fun e => 2 ≤ e.span.start) = true
    · simpa using all
    · refine absurd ⟨Nat.zero_le o, inside⟩ (changed target.whole ?_)
      unfold headEngine
      dsimp only
      rw [if_neg all]
      exact List.mem_singleton_self _
  have same := preimageBefore?_behind (Snapshot.upright_of_follow? follows) behind moved
  have within : o ∈ (⟨0, 2⟩ : Span) ↔ p ∈ (⟨0, 2⟩ : Span) := by
    rw [Span.mem_iff, Span.mem_iff]
    exact and_congr (iff_of_true (Nat.zero_le o) (Nat.zero_le p)) same
  unfold SyntaxTree.categoryAt Rules.categoryAt
  rw [captures]
  simp only [headEngine, List.filterMap_cons, List.filterMap_nil, Stroke.covering?, within]

/-- Two jobs classify the text. An insertion in the second line drops the run that it falls into;
what stands before that run keeps its style, a job goes out for what follows, and the rest waits. -/
theorem converges_after_insertion :
    let grammar : Grammar := ⟨"words", 14, some ⟨["word"], [[]]⟩, [100]⟩
    let edit : Edit := ⟨1, ⟨4, 4⟩, .ofString "xy"⟩
    let calls : List HighlighterCall :=
      [.setLanguage (some grammar), .attach, .workerStep, .poll, .workerStep, .poll,
        .textDidChange ⟨1, .ofString "ab\ncxyd\nef\n"⟩ [edit]]
    ∃ start h : Highlighter,
      start = make ⟨0, .ofString "ab\ncd\nef\n"⟩ ⟨[("word", 7)]⟩ ⟨⟨0, 0, 5, 1⟩, 2, true⟩ ∧
      HonestRun headEngine start calls ∧ h = start.run headEngine calls ∧
      h.index.runs = [⟨⟨0, 2⟩, .styled 7⟩] ∧ h.scheduler.promised = [⟨2, 7⟩] ∧
      h.scheduler.dirty.spans = [⟨7, 11⟩] ∧
      ∀ o < h.snapshot.size,
        o ∈ h.scheduler.dirty ∨ (∃ j ∈ h.scheduler.liveJobs, o ∈ j.span) ∨
          ∀ s : Span, o ∈ s → h.styleAt o = StyleRun.categoryAt (h.classify s) o := by
  intro grammar edit calls
  have honest : HonestRun headEngine
      (make ⟨0, .ofString "ab\ncd\nef\n"⟩ ⟨[("word", 7)]⟩ ⟨⟨0, 0, 5, 1⟩, 2, true⟩) calls := by
    simp only [calls, HonestRun, Honest, snapshot_call, textAfter, true_and, and_true]
    intro _ _
    exact ⟨⟨1, .ofString "ab\ncxyd\nef\n"⟩, by decide +kernel, rfl⟩
  have final := converges headEngine faithful_headEngine _ _ _ calls honest
  refine ⟨_, _, rfl, honest, rfl, ?_, ?_, ?_, final⟩
  · cbv
  · cbv
  · cbv

end Highlighter

end Highlighting
