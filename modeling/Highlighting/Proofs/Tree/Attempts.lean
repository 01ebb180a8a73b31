import Highlighting.Tree.Upkeep
import Mathlib.Logic.Basic

/-!
Attempts at a parse.

With a parser that always answers, an attempt is the same as bringing the tree up to the text
(`TreeKeeper.attempt_of_answers`). Where the parser gives up, the error names the text, the tree is
dropped and the attempt is counted (`TreeKeeper.attempt_of_givesUp`).
-/

namespace Highlighting.TreeKeeper

variable {k : TreeKeeper} {edits : List Edit} {target : Snapshot}

/-- What becomes of a tree depends on the parser only in what it is asked. -/
theorem outcome_congr_asked {parse parse' : Parser}
    (same : ∀ old, k.asks edits target = some old → parse old target = parse' old target) :
    k.outcome parse edits target = k.outcome parse' edits target := by
  unfold asks at same
  unfold outcome
  cases held : k.tree with
  | none =>
      rw [held] at same
      simp only [parseAfresh, same none rfl]
  | some t =>
      rw [held] at same
      dsimp only at same ⊢
      split
      · rfl
      · rename_i outdated
        rw [if_neg outdated] at same
        split
        · rename_i leads
          rw [if_pos leads] at same
          simp only [parseFrom, same _ rfl]
        · rename_i astray
          rw [if_neg astray] at same
          simp only [parseAfresh, same none rfl]

theorem reparse_congr_asked {parse parse' : Parser}
    (same : ∀ old, k.asks edits target = some old → parse old target = parse' old target) :
    k.reparse parse edits target = k.reparse parse' edits target := by
  unfold reparse
  rw [outcome_congr_asked same]

/-- With an answer the failures of before are forgotten. They are left only where the parser is not
asked, and then there was a tree. -/
theorem failures_reparse {parse : Parser} (retriable : k.failures = none ∨ k.tree = none) :
    (k.reparse parse edits target).2.failures = none := by
  rcases retriable with unfailed | treeless
  · simp [reparse, unfailed]
  · have afresh : (k.outcome parse edits target).mode ≠ .skipped := by
      unfold outcome parseAfresh
      rw [treeless]
      dsimp only
      split <;> nofun
    simp [reparse, afresh]

/-- An attempt with a parser that always answers is answered, and is the plain parse. -/
theorem attempt_of_answers (k : TreeKeeper) (parse : Parser) (edits : List Edit)
    (target : Snapshot) :
    k.attempt (fun old target => some (parse old target)) edits target =
      (.ok (k.reparse parse edits target).1, (k.reparse parse edits target).2) := by
  unfold attempt answer?
  cases asked : k.asks edits target with
  | none =>
      have same : k.reparse parse edits target = k.reparse (fun _ _ => ⟨[], []⟩) edits target :=
        reparse_congr_asked (by simp [asked])
      rw [same]
  | some old =>
      have same : k.reparse parse edits target =
          k.reparse (fun _ _ => parse old target) edits target :=
        reparse_congr_asked (by simp [asked])
      rw [same]

/-! ### Giving up -/

/-- The parser gives up on a text, whatever it starts from. -/
def GivesUp (parse : FallibleParser) (target : Snapshot) : Prop :=
  ∀ old, parse old target = none

theorem asks_of_no_tree (treeless : k.tree = none) : k.asks edits target = some none := by
  rw [asks, treeless]

/-- The parser gives up if it is asked at all. -/
theorem attempt_of_givesUp {parse : FallibleParser} (givesUp : GivesUp parse target)
    (asked : k.asks edits target ≠ none) :
    k.attempt parse edits target =
      (.error (.parseFailed target.revision), k.fail target.revision) := by
  obtain ⟨old, asks⟩ := Option.ne_none_iff_exists'.mp asked
  unfold attempt answer?
  rw [asks]
  dsimp only
  rw [givesUp old]

theorem failureCount_fail (k : TreeKeeper) (revision : Revision) :
    (k.fail revision).failureCount revision = k.failureCount revision + 1 := by
  simp [fail, failureCount]

theorem failureCount_of_unfailed (unfailed : k.failures = none) (revision : Revision) :
    k.failureCount revision = 0 := by
  rw [failureCount, unfailed]

end Highlighting.TreeKeeper
