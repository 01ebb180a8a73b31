import Highlighting.Proofs.Text.Stream
import Mathlib.Data.List.DropRight

/-!
Parse modes over the life of a document.

A document is changed, its numbered edits are kept for the next parse or get lost, the text is
parsed again, and trees are dropped, in any order. Beside the run goes its record. What happened
since the last parse tells how the next tree comes about, and that tree is always one of the text
that the document has (`Upkeep.mode_follows_record`).

The tree and the kept edits answer for the record (`Upkeep.Recalls`). As long as no edit was lost,
the kept edits lead from the text of the tree to the one of the document. From the first lost edit
on, the document is further ahead of the tree than the kept edits reach, and stays so until the next
parse; so a loss shows, wherever among the edits it was.
-/

namespace Highlighting

/-! ### Documents with their trees -/

/-- A document, the edits that are kept for the next parse, and the tree. -/
structure Upkeep where
  document : Document
  kept : List Edit
  keeper : TreeKeeper

inductive UpkeepCall where
  /-- The edit is kept for the next parse. -/
  | change (change : TextChange)
  /-- The document is changed, and the edit is not kept. -/
  | lose (change : TextChange)
  /-- The text is parsed, and no edit is kept after that. -/
  | reparse (parse : Parser)
  | discard

namespace Upkeep

/-- What the record of a run keeps of its calls. -/
inductive Event where
  | edited
  | lost
  | parsed
  | discarded
deriving DecidableEq

open Event

/-- A text before its first parse. -/
def start (text : Text) : Upkeep :=
  ⟨.ofText text, [], .empty⟩

/-- Parses the text that the document has. -/
def reparse (u : Upkeep) (parse : Parser) : ParseOutcome × Upkeep :=
  let (answer, keeper) := u.keeper.reparse parse u.kept u.document.snapshot
  (answer, ⟨u.document, [], keeper⟩)

/-- The state after a call, and what the call adds to the record. An edit that the document rejects
leaves no trace. -/
def call (u : Upkeep) : UpkeepCall → Upkeep × List Event
  | .change change =>
    match u.document.change? change with
    | some (made, after) => (⟨after, u.kept ++ [made], u.keeper⟩, [edited])
    | none => (u, [])
  | .lose change =>
    match u.document.change? change with
    | some (_, after) => (⟨after, u.kept, u.keeper⟩, [lost])
    | none => (u, [])
  | .reparse parse => ((u.reparse parse).2, [parsed])
  | .discard => ({ u with keeper := u.keeper.discard }, [discarded])

/-- The runs of calls from a text, each with its record. -/
inductive UpkeepRun (text : Text) : Upkeep → List Event → Prop where
  | start : UpkeepRun text (.start text) []
  | call {u : Upkeep} {past : List Event} (c : UpkeepCall) :
      UpkeepRun text u past → UpkeepRun text (u.call c).1 (past ++ (u.call c).2)

/-- What happened since the last parse. -/
def sinceParse (past : List Event) : List Event :=
  past.rtakeWhile (· ≠ parsed)

/-- How the next tree comes about, by the record alone. -/
def nextMode (past : List Event) : ParseMode :=
  if parsed ∉ past then .initial
  else if discarded ∈ sinceParse past ∨ lost ∈ sinceParse past then .fullReparse
  else if edited ∉ sinceParse past then .skipped
  else .incremental

variable {u : Upkeep} {past : List Event} {e : Event}

theorem sinceParse_parsed (past : List Event) : sinceParse (past ++ [parsed]) = [] :=
  List.rtakeWhile_concat_neg _ _ _ (by decide)

theorem sinceParse_concat (other : e ≠ parsed) :
    sinceParse (past ++ [e]) = sinceParse past ++ [e] :=
  List.rtakeWhile_concat_pos _ _ _ (decide_eq_true other)

/-- What the document, the kept edits and the tree tell of the record. -/
structure Recalls (u : Upkeep) (past : List Event) : Prop where
  unparsed : u.keeper.lastMode = none ↔ parsed ∉ past
  treeless : u.keeper.tree = none ↔ parsed ∉ past ∨ discarded ∈ sinceParse past
  unedited : u.kept = [] ↔ edited ∉ sinceParse past
  follows : ∀ t, u.keeper.tree = some t → lost ∉ sinceParse past →
    t.snapshot.follow? u.kept = some u.document.snapshot
  behind : ∀ t, u.keeper.tree = some t → lost ∈ sinceParse past →
    t.revision + u.kept.length < u.document.revision

theorem recalls_start (text : Text) : Recalls (.start text) [] where
  unparsed := by simp [start, TreeKeeper.empty]
  treeless := by simp [start, TreeKeeper.empty]
  unedited := by simp [start, sinceParse]
  follows := nofun
  behind := nofun

/-! ### What a parse answers -/

/-- The kept edits lead from the tree to the document exactly if none was lost. -/
theorem Recalls.leadsTo_iff {t : SyntaxTree} (recalls : Recalls u past)
    (held : u.keeper.tree = some t) :
    t.snapshot.leadsTo u.kept u.document.snapshot = true ↔ lost ∉ sinceParse past := by
  rw [Snapshot.leadsTo_iff]
  constructor
  · rintro ⟨reached, follows, revision, -⟩ missing
    have short : t.revision + u.kept.length < u.document.snapshot.revision :=
      recalls.behind t held missing
    rw [← revision, Snapshot.revision_of_follow? follows] at short
    exact Nat.lt_irrefl _ short
  · intro complete
    exact ⟨_, recalls.follows t held complete, rfl, rfl⟩

theorem Recalls.mode_parseAfresh (recalls : Recalls u past) (parse : Parser) (target : Snapshot) :
    (u.keeper.parseAfresh parse target).mode =
      if parsed ∉ past then .initial else .fullReparse := by
  rw [TreeKeeper.parseAfresh]
  simp only [Option.isNone_iff_eq_none, recalls.unparsed]

theorem Recalls.mode_outcome (recalls : Recalls u past) (parse : Parser) :
    (u.keeper.outcome parse u.kept u.document.snapshot).mode = nextMode past := by
  rw [nextMode]
  cases held : u.keeper.tree with
  | none =>
      have dropped : parsed ∈ past → discarded ∈ sinceParse past := fun before =>
        (recalls.treeless.mp held).resolve_left (not_not_intro before)
      rw [TreeKeeper.outcome_of_no_tree held, recalls.mode_parseAfresh]
      by_cases before : parsed ∈ past
      · simp [before, dropped before]
      · simp [before]
  | some t =>
      have stands : ¬(parsed ∉ past ∨ discarded ∈ sinceParse past) := by
        rw [← recalls.treeless, held]
        exact nofun
      obtain ⟨before, undropped⟩ : parsed ∈ past ∧ discarded ∉ sinceParse past := by
        simpa using stands
      by_cases missing : lost ∈ sinceParse past
      · have astray : t.snapshot.leadsTo u.kept u.document.snapshot = false :=
          Bool.eq_false_iff.mpr fun leads => (recalls.leadsTo_iff held).mp leads missing
        rw [TreeKeeper.outcome_of_astray held astray, recalls.mode_parseAfresh]
        simp [before, missing]
      · rw [TreeKeeper.outcome_of_leadsTo held ((recalls.leadsTo_iff held).mpr missing)]
        by_cases unedited : u.kept = []
        · simp [before, undropped, missing, unedited, recalls.unedited.mp unedited]
        · have edits : edited ∈ sinceParse past := not_not.mp (mt recalls.unedited.mpr unedited)
          simp [before, undropped, missing, unedited, edits, TreeKeeper.parseFrom]

/-- The new tree is one of the text that the document has. -/
theorem Recalls.snapshot_outcome (recalls : Recalls u past) (parse : Parser) :
    (u.keeper.outcome parse u.kept u.document.snapshot).tree.snapshot = u.document.snapshot :=
  TreeKeeper.snapshot_outcome fun t held leads =>
    recalls.follows t held ((recalls.leadsTo_iff held).mp leads)

/-! ### What a call keeps -/

theorem Recalls.change {after : Document} {change : TextChange} {made : Edit}
    (recalls : Recalls u past) (changed : u.document.change? change = some (made, after)) :
    Recalls ⟨after, u.kept ++ [made], u.keeper⟩ (past ++ [edited]) := by
  have since : sinceParse (past ++ [edited]) = sinceParse past ++ [edited] :=
    sinceParse_concat (by decide)
  constructor
  · simpa using recalls.unparsed
  · simpa [since] using recalls.treeless
  · simp [since]
  · intro t held complete
    have before : lost ∉ sinceParse past := by simpa [since] using complete
    rw [Snapshot.follow?_append, recalls.follows t held before]
    exact Document.follow?_change? changed
  · intro t held missing
    have before : lost ∈ sinceParse past := by simpa [since] using missing
    rw [List.length_append, Document.revision_of_change? changed]
    exact Nat.add_lt_add_right (recalls.behind t held before) 1

theorem Recalls.lose {after : Document} {change : TextChange} {made : Edit}
    (recalls : Recalls u past) (changed : u.document.change? change = some (made, after)) :
    Recalls ⟨after, u.kept, u.keeper⟩ (past ++ [lost]) := by
  have since : sinceParse (past ++ [lost]) = sinceParse past ++ [lost] :=
    sinceParse_concat (by decide)
  constructor
  · simpa using recalls.unparsed
  · simpa [since] using recalls.treeless
  · simpa [since] using recalls.unedited
  · simp [since]
  · intro t held _
    rw [Document.revision_of_change? changed]
    by_cases missing : lost ∈ sinceParse past
    · exact Nat.lt_succ_of_lt (recalls.behind t held missing)
    · have level : u.document.revision = t.revision + u.kept.length :=
        Snapshot.revision_of_follow? (recalls.follows t held missing)
      rw [level]
      exact Nat.lt_succ_self _

theorem Recalls.reparse (recalls : Recalls u past) (parse : Parser) :
    Recalls (u.reparse parse).2 (past ++ [parsed]) := by
  have since : sinceParse (past ++ [parsed]) = [] := sinceParse_parsed past
  constructor
  · simp [Upkeep.reparse, TreeKeeper.reparse]
  · simp [Upkeep.reparse, TreeKeeper.reparse, since]
  · simp [Upkeep.reparse, since]
  · intro t held _
    cases held
    exact congrArg some (recalls.snapshot_outcome parse)
  · simp [since]

theorem Recalls.discard (recalls : Recalls u past) :
    Recalls { u with keeper := u.keeper.discard } (past ++ [discarded]) := by
  have since : sinceParse (past ++ [discarded]) = sinceParse past ++ [discarded] :=
    sinceParse_concat (by decide)
  constructor
  · simpa [TreeKeeper.discard] using recalls.unparsed
  · simp [since, TreeKeeper.discard]
  · simpa [since] using recalls.unedited
  · exact nofun
  · exact nofun

theorem Recalls.call (recalls : Recalls u past) (c : UpkeepCall) :
    Recalls (u.call c).1 (past ++ (u.call c).2) := by
  cases c with
  | change change =>
      rw [Upkeep.call]
      cases changed : u.document.change? change with
      | none => simpa using recalls
      | some made => exact recalls.change changed
  | lose change =>
      rw [Upkeep.call]
      cases changed : u.document.change? change with
      | none => simpa using recalls
      | some made => exact recalls.lose changed
  | reparse parse => exact recalls.reparse parse
  | discard => exact recalls.discard

theorem recalls_of_run {text : Text} (run : UpkeepRun text u past) : Recalls u past := by
  induction run with
  | start => exact recalls_start text
  | call c _ recalls => exact recalls.call c

/-- How a tree comes about follows from the record. The first parse is initial. After that a parse is
from scratch if since the one before a tree was dropped or an edit was lost; if neither was, the tree
is kept as it is if nothing was edited, and else taken on from the edits. The new tree always has the
revision and the text of the document, and from scratch all of the text counts as changed. -/
theorem mode_follows_record {text : Text} (run : UpkeepRun text u past) (parse : Parser) :
    let outcome := (u.reparse parse).1
    let after := (u.reparse parse).2
    outcome.mode = nextMode past ∧
      after.keeper.tree = some outcome.tree ∧
      outcome.tree.revision = after.document.revision ∧
      outcome.tree.snapshot.text = after.document.text ∧
      (outcome.mode = .initial ∨ outcome.mode = .fullReparse →
        outcome.changed = [after.document.snapshot.whole]) ∧
      (outcome.mode = .skipped → outcome.changed = []) := by
  intro outcome after
  have recalls := recalls_of_run run
  have snapshot := recalls.snapshot_outcome parse
  refine ⟨recalls.mode_outcome parse, rfl, congrArg Snapshot.revision snapshot,
    congrArg Snapshot.text snapshot, fun afresh => ?_, TreeKeeper.changed_of_skipped⟩
  have scratch : outcome = u.keeper.parseAfresh parse u.document.snapshot := by
    refine TreeKeeper.outcome_of_not_reuses ?_
    change outcome.mode.reuses = false
    rcases afresh with mode | mode <;> rw [mode] <;> rfl
  rw [scratch]
  rfl

/-- After a parse an edit is lost before one that is kept. The kept one does not make up for it. -/
theorem mode_after_a_lost_edit :
    let parse : Parser := fun _ _ => ⟨[], []⟩
    let insert (c : Char) : TextChange := .edit (.insert 0 (.ofChars [c]))
    let edited := ((start (.ofChars ['a'])).call (.change (insert 'é'))).1
    let parsed := (edited.call (.reparse parse)).1
    let lost := (parsed.call (.lose (insert 'b'))).1
    let last := (lost.call (.change (insert 'c'))).1
    last.kept.length = 1 ∧ (last.reparse parse).1.mode = .fullReparse ∧
      (last.reparse parse).1.tree.snapshot = ⟨3, .ofChars ['c', 'b', 'é', 'a']⟩ ∧
      (last.reparse parse).1.changed = [⟨0, 5⟩] := by
  intro parse insert edited parsed lost last
  have run : UpkeepRun (.ofChars ['a']) last [.edited, .parsed, .lost, .edited] :=
    .call _ (.call _ (.call _ (.call _ .start)))
  have text : last.document.snapshot = ⟨3, .ofChars ['c', 'b', 'é', 'a']⟩ := by decide +kernel
  obtain ⟨mode, -, revision, same, whole, -⟩ := mode_follows_record run parse
  refine ⟨by decide +kernel, mode, (Snapshot.ext revision same).trans text, ?_⟩
  rw [whole (Or.inr mode)]
  change [last.document.snapshot.whole] = _
  rw [text]
  rfl

end Upkeep

end Highlighting
