import Highlighting.Proofs.Batch

/-!
When a tree is taken over.

A tree is taken over, as it is or as the start of a parse, if the edits are numbered on from its
revision, can be applied to its text one after another, and lead to the revision and the length of
the snapshot. In every other case the snapshot is parsed from scratch and counts as changed as a
whole.

Texts are not compared beyond that. Where no text that the edits lead to is mistaken for the one of
the snapshot, a tree is taken over only for edits that lead to the snapshot itself, and the new tree
is one of the snapshot (`TreeKeeper.reuse_follows_edits`). A snapshot of another text that has the
revision and the length which the edits lead to is mistaken for it
(`TreeKeeper.reuse_for_another_text`).
-/

namespace Highlighting

/-- The tree before was taken over. -/
def ParseMode.reuses : ParseMode → Bool
  | incremental | skipped => true
  | initial | fullReparse => false

namespace Snapshot

variable {s target reached : Snapshot} {edits : List Edit}

/-- Every edit that is followed moves the revision on by one. -/
theorem revision_of_follow? (follows : s.follow? edits = some reached) :
    reached.revision = s.revision + edits.length := by
  induction edits generalizing s with
  | nil =>
      cases follows
      rfl
  | cons e rest ih =>
      obtain ⟨next, numbered, applied, further⟩ := follow?_cons_eq_some follows
      rw [ih further, (text_of_apply applied).2, numbered]
      exact Nat.add_right_comm _ _ _

/-- To follow edits is to apply them in order. -/
theorem replay_of_follow? (follows : s.follow? edits = some reached) :
    s.replay edits = .ok reached := by
  induction edits generalizing s with
  | nil =>
      cases follows
      rfl
  | cons e rest ih =>
      obtain ⟨next, -, applied, further⟩ := follow?_cons_eq_some follows
      rw [replay, applied]
      exact ih further

theorem leadsTo_iff : s.leadsTo edits target = true ↔ ∃ reached, s.follow? edits = some reached ∧
    reached.revision = target.revision ∧ reached.size = target.size := by
  unfold leadsTo
  cases s.follow? edits with
  | none => simp
  | some reached => simp

end Snapshot

namespace TreeKeeper

variable {k : TreeKeeper} {t : SyntaxTree} {parse : Parser} {edits : List Edit} {target : Snapshot}

/-- A tree is current if no edits lead from it to the snapshot. -/
theorem isCurrent_eq (t : SyntaxTree) (edits : List Edit) (target : Snapshot) :
    isCurrent t edits target = (edits.isEmpty && t.snapshot.leadsTo edits target) := by
  cases edits with
  | nil => rfl
  | cons e rest => rfl

theorem outcome_of_no_tree (none : k.tree = none) :
    k.outcome parse edits target = k.parseAfresh parse target := by
  rw [outcome, none]

/-- A tree that the edits lead elsewhere is of no use. -/
theorem outcome_of_astray (held : k.tree = some t)
    (astray : t.snapshot.leadsTo edits target = false) :
    k.outcome parse edits target = k.parseAfresh parse target := by
  rw [outcome, held]
  dsimp only
  rw [isCurrent_eq, astray, Bool.and_false]
  rfl

/-- A tree that the edits lead to the snapshot is kept if there are none of them. -/
theorem outcome_of_leadsTo (held : k.tree = some t)
    (leads : t.snapshot.leadsTo edits target = true) :
    k.outcome parse edits target =
      if edits.isEmpty then ⟨t, [], .skipped⟩ else parseFrom t parse edits target := by
  rw [outcome, held]
  dsimp only
  rw [isCurrent_eq, leads, Bool.and_true]
  rfl

/-- A tree that is that of the text is kept. -/
theorem outcome_of_current (parse : Parser) (held : k.tree = some t)
    (revision : t.revision = target.revision) (size : t.snapshot.size = target.size) :
    k.outcome parse [] target = ⟨t, [], .skipped⟩ :=
  outcome_of_leadsTo held (Snapshot.leadsTo_iff.mpr ⟨_, rfl, revision, size⟩)

/-- The tree comes from scratch, or it is the one of before, or it is parsed from the one of before
along edits that lead to the text. -/
theorem outcome_cases (k : TreeKeeper) (parse : Parser) (edits : List Edit) (target : Snapshot) :
    k.outcome parse edits target = k.parseAfresh parse target ∨
      ∃ t, k.tree = some t ∧
        ((edits = [] ∧ t.revision = target.revision ∧ t.snapshot.size = target.size) ∧
            k.outcome parse edits target = ⟨t, [], .skipped⟩ ∨
          t.snapshot.leadsTo edits target = true ∧
            k.outcome parse edits target = parseFrom t parse edits target) := by
  cases held : k.tree with
  | none => exact Or.inl (outcome_of_no_tree held)
  | some t =>
      cases leads : t.snapshot.leadsTo edits target with
      | false => exact Or.inl (outcome_of_astray held leads)
      | true =>
          have taken : k.outcome parse edits target =
              if edits.isEmpty then ⟨t, [], .skipped⟩ else parseFrom t parse edits target :=
            outcome_of_leadsTo held leads
          right
          refine ⟨t, rfl, ?_⟩
          split at taken
          · rename_i none
            obtain rfl := List.isEmpty_iff.mp none
            obtain ⟨reached, follows, revision, size⟩ := Snapshot.leadsTo_iff.mp leads
            cases follows
            exact Or.inl ⟨⟨rfl, revision, size⟩, taken⟩
          · exact Or.inr ⟨leads, taken⟩

/-- The new tree has the revision and the length of the text. -/
theorem follows_outcome (k : TreeKeeper) (parse : Parser) (edits : List Edit) (target : Snapshot) :
    (k.outcome parse edits target).tree.revision = target.revision ∧
      (k.outcome parse edits target).tree.snapshot.size = target.size := by
  rcases outcome_cases k parse edits target with eq | ⟨t, -, ⟨⟨-, same⟩, eq⟩ | ⟨-, eq⟩⟩
  · rw [eq]
    exact ⟨rfl, rfl⟩
  · rw [eq]
    exact same
  · rw [eq]
    exact ⟨rfl, rfl⟩

/-- The new tree is one of the text, if the tree before is taken over for edits that lead to the text
alone. -/
theorem snapshot_outcome (precise : ∀ t, k.tree = some t → t.snapshot.leadsTo edits target = true →
    t.snapshot.follow? edits = some target) :
    (k.outcome parse edits target).tree.snapshot = target := by
  rcases outcome_cases k parse edits target with
    eq | ⟨t, held, ⟨⟨rfl, revision, size⟩, eq⟩ | ⟨-, eq⟩⟩
  · rw [eq]
    rfl
  · rw [eq]
    exact Option.some.inj (precise t held (Snapshot.leadsTo_iff.mpr ⟨_, rfl, revision, size⟩))
  · rw [eq]
    rfl

theorem reuses_parseAfresh (k : TreeKeeper) (parse : Parser) (target : Snapshot) :
    (k.parseAfresh parse target).mode.reuses = false := by
  unfold parseAfresh
  dsimp only
  split <;> rfl

theorem outcome_of_not_reuses (afresh : (k.outcome parse edits target).mode.reuses = false) :
    k.outcome parse edits target = k.parseAfresh parse target := by
  rcases outcome_cases k parse edits target with eq | ⟨t, -, ⟨-, eq⟩ | ⟨-, eq⟩⟩
  · exact eq
  · rw [eq] at afresh
    cases afresh
  · rw [eq] at afresh
    cases afresh

/-- A tree that is kept has no changes. -/
theorem changed_of_skipped (skipped : (k.outcome parse edits target).mode = .skipped) :
    (k.outcome parse edits target).changed = [] := by
  rcases outcome_cases k parse edits target with eq | ⟨t, -, ⟨-, eq⟩ | ⟨-, eq⟩⟩
  · have afresh := reuses_parseAfresh k parse target
    rw [← eq, skipped] at afresh
    cases afresh
  · rw [eq]
  · rw [eq] at skipped
    cases skipped

/-- A tree is taken over exactly if the edits lead from it to the snapshot. -/
theorem reuses_outcome (held : k.tree = some t) :
    (k.outcome parse edits target).mode.reuses = t.snapshot.leadsTo edits target := by
  cases leads : t.snapshot.leadsTo edits target with
  | false => rw [outcome_of_astray held leads, reuses_parseAfresh]
  | true =>
      rw [outcome_of_leadsTo held leads]
      split <;> rfl

/-- The tree before is taken over exactly if the edits are numbered on from it, can be applied in
order, and lead to the revision and the length of the snapshot; in every other case the snapshot is
parsed from scratch and is changed as a whole. If no text that the edits lead to is mistaken for the
one of the snapshot, a tree is taken over only for edits that lead to the snapshot itself, and the
new tree is always one of the snapshot. -/
theorem reuse_follows_edits (held : k.tree = some t) (parse : Parser) (edits : List Edit)
    (target : Snapshot) :
    let outcome := (k.reparse parse edits target).1
    let after := (k.reparse parse edits target).2
    (outcome.mode.reuses = true ↔ ∃ reached, t.snapshot.follow? edits = some reached ∧
        reached.revision = target.revision ∧ reached.size = target.size) ∧
      (outcome.mode.reuses = false →
        outcome.tree = ⟨target, (parse none target).captures⟩ ∧
          outcome.changed = [target.whole]) ∧
      after.tree = some outcome.tree ∧
      ((∀ reached, t.snapshot.follow? edits = some reached →
          reached.revision = target.revision → reached.size = target.size →
            reached.text = target.text) →
        (outcome.mode.reuses = true → t.snapshot.replay edits = .ok target) ∧
          outcome.tree.snapshot = target) := by
  intro outcome after
  have reuses : outcome.mode.reuses = t.snapshot.leadsTo edits target := reuses_outcome held
  have afresh : t.snapshot.leadsTo edits target = false → outcome = k.parseAfresh parse target :=
    outcome_of_astray held
  rw [reuses]
  refine ⟨Snapshot.leadsTo_iff, fun astray => ?_, rfl, fun identified => ?_⟩
  · rw [afresh astray]
    exact ⟨rfl, rfl⟩
  · have follows : t.snapshot.leadsTo edits target = true →
        t.snapshot.follow? edits = some target := by
      intro leads
      obtain ⟨reached, follows, revision, size⟩ := Snapshot.leadsTo_iff.mp leads
      rw [follows, Snapshot.ext revision (identified reached follows revision size)]
    refine ⟨fun leads => Snapshot.replay_of_follow? (follows leads), ?_⟩
    exact snapshot_outcome fun old before => by
      cases held.symm.trans before
      exact follows

/-- Two edits are followed through a character of two bytes, and the tree before is where the parse
starts. -/
theorem reuse_along_two_edits :
    let t : SyntaxTree := ⟨⟨3, .ofChars ['a', 'b']⟩, []⟩
    let edits : List Edit :=
      [⟨4, ⟨1, 1⟩, .ofChars ['é']⟩, ⟨5, ⟨1, 3⟩, .empty⟩]
    let target : Snapshot := ⟨5, .ofChars ['a', 'b']⟩
    let outcome := ((⟨some t, some .initial, none⟩ : TreeKeeper).reparse
      (fun _ _ => ⟨[], [⟨1, 2⟩]⟩) edits target).1
    outcome.mode = .incremental ∧ t.snapshot.replay edits = .ok target ∧
      outcome.tree.snapshot = target := by
  intro t edits target outcome
  have follows : t.snapshot.follow? edits = some target := by decide +kernel
  obtain ⟨-, -, -, precise⟩ := reuse_follows_edits (k := ⟨some t, some .initial, none⟩) rfl
    (fun _ _ => ⟨[], [⟨1, 2⟩]⟩) edits target
  obtain ⟨replays, snapshot⟩ := precise fun reached followed _ _ => by
    rw [follows] at followed
    cases followed
    rfl
  have mode : outcome.mode = .incremental := by decide +kernel
  refine ⟨mode, replays ?_, snapshot⟩
  change outcome.mode.reuses = true
  rw [mode]
  rfl

/-- A snapshot of another text is mistaken for the one that the edits lead to: without an edit the
tree of the old text is kept, and after an edit that changes nothing the tree of the old text is
where the parse starts. -/
theorem reuse_for_another_text :
    let t : SyntaxTree := ⟨⟨0, .ofString "let x = 1;"⟩, []⟩
    let k : TreeKeeper := ⟨some t, some .initial, none⟩
    let parse : Parser := fun _ _ => ⟨[], []⟩
    let kept := (k.reparse parse [] ⟨0, .ofString "let y = 2;"⟩).1
    let edits : List Edit := [⟨1, ⟨0, 0⟩, .empty⟩]
    (kept.mode = .skipped ∧ t.snapshot.replay [] ≠ .ok ⟨0, .ofString "let y = 2;"⟩ ∧
        kept.tree.snapshot.text ≠ .ofString "let y = 2;") ∧
      (k.reparse parse edits ⟨1, .ofString "let y = 2;"⟩).1.mode = .incremental ∧
      t.snapshot.replay edits ≠ .ok ⟨1, .ofString "let y = 2;"⟩ := by
  decide +kernel

end TreeKeeper

end Highlighting
