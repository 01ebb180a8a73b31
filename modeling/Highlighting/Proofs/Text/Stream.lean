import Highlighting.Proofs.Tree.Reuse
import Highlighting.Text.Document
import Highlighting.Text.EditLog

/-!
The edits that a document makes known.

A document changes by an edit or as a whole, and every change that it takes becomes one numbered
edit. The edits of a run, in order, are a full account of it. A snapshot from before the run replays
them to the one after, the edit log takes them from the revision and the length of the first to
those of the second, and whoever was subscribed hears them and nothing else
(`Document.replays_edit_stream`). Changes that are rejected leave no trace in any of these.
-/

namespace Highlighting

/-! ### Changes to a document -/

/-- What callers ask of a document. -/
inductive TextChange where
  | edit (e : Edit)
  /-- Replaces the whole text. -/
  | text (text : Text)

/-- Makes a change; answers the numbered edit, with the document after it. `none` if the document
rejects the edit. -/
def Document.change? (d : Document) : TextChange → Option (Edit × Document)
  | .edit e => (d.apply e).toOption
  | .text text => some (d.setText text)

namespace Text

theorem countChars?_byteCount (count : Nat) (cs : List Char) :
    countChars? count cs (byteCount cs) = some (count + cs.length) := by
  induction cs generalizing count with
  | nil => rfl
  | cons c rest ih =>
      obtain ⟨offset, bytes⟩ : ∃ offset, c.utf8Size + byteCount rest = offset + 1 :=
        Nat.exists_eq_succ_of_ne_zero (Nat.ne_of_gt (Nat.add_pos_left c.utf8Size_pos _))
      change countChars? count (c :: rest) (c.utf8Size + byteCount rest) = _
      rw [bytes, countChars?, Nat.succ_eq_add_one, ← bytes, if_pos (Nat.le_add_right ..),
        Nat.add_sub_cancel_left, ih, List.length_cons, Nat.add_assoc, Nat.add_comm 1]

/-- A text can be replaced as a whole, whatever its characters are. -/
theorem apply_whole (t u : Text) (revision : Revision) :
    t.apply ⟨revision, ⟨0, t.size⟩, u⟩ = .ok u := by
  have front : t.splitAt? 0 = some (.empty, .ofChars t.chars) := by
    cases chars : t.chars <;> simp [splitAt?, countChars?, chars, empty]
  have back : t.splitAt? t.size = some (.ofChars t.chars, .empty) := by
    rw [splitAt?, t.size_eq, countChars?_byteCount, Option.map_some, Nat.zero_add,
      List.take_length, List.drop_length]
    rfl
  have unchanged : empty ++ u ++ empty = u := by
    ext1
    exact List.append_nil _
  simp only [apply, Edit.check, cutAt, front, back, Nat.not_lt_zero, Nat.lt_irrefl, if_false]
  exact congrArg Except.ok unchanged

end Text

theorem Snapshot.follow?_singleton {s : Snapshot} {e : Edit} {text : Text}
    (numbered : e.revision = s.revision + 1) (applied : s.text.apply e = .ok text) :
    s.follow? [e] = some ⟨e.revision, text⟩ := by
  rw [follow?, if_pos numbered, apply, applied]
  rfl

/-- The numbered edit of a change leads from the document before to the one after. -/
theorem Document.follow?_change? {d after : Document} {change : TextChange} {made : Edit}
    (changed : d.change? change = some (made, after)) :
    d.snapshot.follow? [made] = some after.snapshot := by
  cases change with
  | edit e =>
      rw [change?, Document.apply] at changed
      cases applied : d.text.apply e with
      | error fault =>
          rw [applied] at changed
          cases changed
      | ok text =>
          rw [applied] at changed
          cases changed
          exact Snapshot.follow?_singleton rfl applied
  | text text =>
      cases changed
      exact Snapshot.follow?_singleton rfl (Text.apply_whole ..)

theorem Document.revision_of_change? {d after : Document} {change : TextChange} {made : Edit}
    (changed : d.change? change = some (made, after)) : after.revision = d.revision + 1 :=
  Snapshot.revision_of_follow? (follow?_change? changed)

/-! ### Runs of calls -/

inductive DocumentCall where
  | apply (e : Edit)
  | insert (offset : Nat) (text : Text)
  | delete (s : Span)
  | replace (s : Span) (text : Text)
  | setText (text : Text)
  | subscribe

namespace Document

/-- What an answer of the document `d` makes known, with the document after it. -/
def settle (d : Document) : Except EditError (Edit × Document) → List Edit × Document
  | .ok (made, after) => ([made], after)
  | .error _ => ([], d)

/-- The edits that a call makes known, with the document after it. -/
def call (d : Document) : DocumentCall → List Edit × Document
  | .apply e => d.settle (d.apply e)
  | .insert offset text => d.settle (d.insert offset text)
  | .delete s => d.settle (d.delete s)
  | .replace s text => d.settle (d.replace s text)
  | .setText text => d.settle (.ok (d.setText text))
  | .subscribe => ([], d.subscribe)

/-- The edits that the calls make known, in order, with the document after them. -/
def run (d : Document) : List DocumentCall → List Edit × Document
  | [] => ([], d)
  | c :: rest =>
    let (made, next) := d.call c
    let (more, after) := next.run rest
    (made ++ more, after)

end Document

/-- What one subscriber gets of the deliveries, in the order in which they are made. -/
def heardBy (subscriber : Nat) (deliveries : List (Nat × Edit)) : List Edit :=
  (deliveries.filter fun d => d.1 == subscriber).map Prod.snd

/-- Records edits in order, up to the first that is rejected. -/
def EditLog.recordAll (l : EditLog) : List Edit → Except EditError EditLog
  | [] => .ok l
  | e :: rest => do (← l.record e).recordAll rest

/-! ### What a document tells of its changes -/

theorem heardBy_append (subscriber : Nat) (deliveries later : List (Nat × Edit)) :
    heardBy subscriber (deliveries ++ later) =
      heardBy subscriber deliveries ++ heardBy subscriber later := by
  rw [heardBy, List.filter_append, List.map_append]
  rfl

/-- An edit that is delivered to all subscribers reaches each of them once. -/
theorem heardBy_everyone (subscribers n : Nat) (e : Edit) :
    heardBy n ((List.range subscribers).map fun k => (k + 1, e)) =
      if 1 ≤ n ∧ n ≤ subscribers then [e] else [] := by
  induction subscribers with
  | zero =>
      rw [if_neg (by omega)]
      rfl
  | succ k ih =>
      rw [List.range_succ, List.map_append, heardBy_append, ih]
      by_cases last : k + 1 = n
      · rw [if_neg (by omega), if_pos (by omega)]
        simp [heardBy, last]
      · have same : (1 ≤ n ∧ n ≤ k + 1) = (1 ≤ n ∧ n ≤ k) := propext (by omega)
        simp [heardBy, last, same]

namespace Document

/-- The edits are a full account of how one document comes to be the other. -/
structure Retells (edits : List Edit) (after before : Document) : Prop where
  follows : before.snapshot.follow? edits = some after.snapshot
  subscribers : before.subscribers ≤ after.subscribers
  told : ∃ deliveries, after.outbox = before.outbox ++ deliveries ∧
    ∀ n, 1 ≤ n → n ≤ before.subscribers → heardBy n deliveries = edits

variable {d after before between : Document} {edits later : List Edit} {made : Edit}

theorem retells_refl (d : Document) : Retells [] d d where
  follows := rfl
  subscribers := Nat.le_refl _
  told := ⟨[], (List.append_nil _).symm, fun _ _ _ => rfl⟩

theorem retells_subscribe (d : Document) : Retells [] d.subscribe d where
  follows := rfl
  subscribers := Nat.le_succ _
  told := ⟨[], (List.append_nil _).symm, fun _ _ _ => rfl⟩

/-- Every change that a document takes is an advance by the edit that it makes known. -/
theorem advance_of_change? {change : TextChange}
    (changed : d.change? change = some (made, after)) :
    ∃ text, after = d.advance made text := by
  cases change with
  | edit e =>
      rw [change?, apply] at changed
      cases applied : d.text.apply e with
      | error fault =>
          rw [applied] at changed
          cases changed
      | ok text =>
          rw [applied] at changed
          cases changed
          exact ⟨text, rfl⟩
  | text text =>
      cases changed
      exact ⟨text, rfl⟩

theorem retells_change {change : TextChange}
    (changed : d.change? change = some (made, after)) : Retells [made] after d := by
  obtain ⟨text, rfl⟩ := advance_of_change? changed
  have told : ∀ n, 1 ≤ n → n ≤ d.subscribers →
      heardBy n ((List.range d.subscribers).map fun k => (k + 1, made)) = [made] := by
    intro n first last
    rw [heardBy_everyone, if_pos ⟨first, last⟩]
  exact ⟨follow?_change? changed, Nat.le_refl _, _, rfl, told⟩

theorem Retells.trans (second : Retells later after between)
    (first : Retells edits between before) : Retells (edits ++ later) after before where
  follows := by
    rw [Snapshot.follow?_append, first.follows]
    exact second.follows
  subscribers := Nat.le_trans first.subscribers second.subscribers
  told := by
    obtain ⟨deliveries, outbox, heard⟩ := first.told
    obtain ⟨more, further, heardMore⟩ := second.told
    refine ⟨deliveries ++ more, ?_, ?_⟩
    · rw [further, outbox, List.append_assoc]
    · intro n one present
      rw [heardBy_append, heard n one present,
        heardMore n one (Nat.le_trans present first.subscribers)]

theorem retells_settle (d : Document) (change : TextChange)
    {answer : Except EditError (Edit × Document)} (same : answer.toOption = d.change? change) :
    Retells (d.settle answer).1 (d.settle answer).2 d := by
  cases answer with
  | error fault => exact retells_refl d
  | ok made => exact retells_change same.symm

theorem retells_call (d : Document) (c : DocumentCall) :
    Retells (d.call c).1 (d.call c).2 d := by
  cases c with
  | apply e => exact retells_settle d (.edit e) rfl
  | insert offset text => exact retells_settle d (.edit (.insert offset text)) rfl
  | delete s => exact retells_settle d (.edit (.delete s)) rfl
  | replace s text => exact retells_settle d (.edit (.replace s text)) rfl
  | setText text => exact retells_settle d (.text text) rfl
  | subscribe => exact retells_subscribe d

theorem retells_run (d : Document) (calls : List DocumentCall) :
    Retells (d.run calls).1 (d.run calls).2 d := by
  induction calls generalizing d with
  | nil => exact retells_refl d
  | cons c rest ih => exact (ih (d.call c).2).trans (retells_call d c)

end Document

/-! ### What the edit log makes of the edits -/

/-- An edit of the text is recorded, whatever number it carries, and the log goes on to the length
of the text after it. -/
theorem EditLog.record_of_apply {l : EditLog} {e : Edit} {t u : Text} (number : Revision)
    (applied : t.apply e = .ok u) (size : l.size = t.size) :
    l.record { e with revision := number } =
      .ok ⟨l.revision + 1, u.size, l.pending ++ [{ e with revision := l.revision + 1 }]⟩ := by
  obtain ⟨upright, fits, length⟩ := Text.size_of_apply applied
  have checked : Edit.check { e with revision := number } l.size = .ok () := by
    rw [Edit.check, if_neg (Nat.not_lt.mpr upright), if_neg (Nat.not_lt.mpr (size ▸ fits))]
  rw [record, checked, length, size]
  rfl

/-- The log gives the edits that a snapshot follows the numbers that they have. -/
theorem EditLog.recordAll_of_follow? (number : Edit → Revision) {s reached : Snapshot}
    {edits : List Edit} (pending : List Edit) (follows : s.follow? edits = some reached) :
    EditLog.recordAll ⟨s.revision, s.size, pending⟩
        (edits.map fun e => { e with revision := number e }) =
      .ok ⟨reached.revision, reached.size, pending ++ edits⟩ := by
  induction edits generalizing s pending with
  | nil =>
      cases follows
      rw [List.append_nil]
      rfl
  | cons e rest ih =>
      obtain ⟨next, numbered, applied, further⟩ := Snapshot.follow?_cons_eq_some follows
      obtain ⟨text, revision⟩ := Snapshot.text_of_apply applied
      rw [List.map_cons, recordAll, record_of_apply (number e) text rfl, ← numbered]
      have stamped : ({ e with revision := e.revision } : Edit) = e := rfl
      have step := ih (pending ++ [e]) further
      rw [List.append_assoc, List.singleton_append, revision] at step
      exact step

namespace Document

/-- The edits that calls make known lead the snapshot before them to the one after, each of them
applied to what the ones before it have left. The log that starts at the first snapshot records them
under the same numbers, and ends at the second. Everyone who was subscribed hears these edits, each
once and in order. -/
theorem replays_edit_stream (d : Document) (calls : List DocumentCall) :
    let edits := (d.run calls).1
    let after := (d.run calls).2
    d.snapshot.replay edits = .ok after.snapshot ∧
      (∀ number : Edit → Revision,
        (EditLog.start d.revision d.text.size).recordAll
            (edits.map fun e => { e with revision := number e }) =
          .ok ⟨after.revision, after.text.size, edits⟩) ∧
      ∃ deliveries, after.outbox = d.outbox ++ deliveries ∧
        ∀ n, 1 ≤ n → n ≤ d.subscribers → heardBy n deliveries = edits := by
  intro edits after
  have retells : Retells edits after d := retells_run d calls
  refine ⟨Snapshot.replay_of_follow? retells.follows, ?_, retells.told⟩
  intro number
  exact EditLog.recordAll_of_follow? number [] retells.follows

/-- A text with a character of two bytes. The deletion that starts inside it is rejected, and a
subscriber that comes on the way is not told of what was before. -/
theorem stream_with_a_rejected_edit :
    let text (cs : List Char) : Text := .ofChars cs
    let watched := (ofText (text ['a', 'é'])).subscribe
    let calls : List DocumentCall :=
      [.insert 1 (text ['b']), .delete ⟨3, 4⟩, .subscribe, .setText (text ['é']), .delete ⟨0, 2⟩]
    let edits : List Edit :=
      [⟨1, ⟨1, 1⟩, text ['b']⟩, ⟨2, ⟨0, 4⟩, text ['é']⟩, ⟨3, ⟨0, 2⟩, .empty⟩]
    (watched.run calls).1 = edits ∧ watched.snapshot.replay edits = .ok ⟨3, .empty⟩ ∧
      (EditLog.start 0 3).recordAll (edits.map fun e => { e with revision := 0 }) =
        .ok ⟨3, 0, edits⟩ ∧
      ∃ deliveries, (watched.run calls).2.outbox = deliveries ∧ heardBy 1 deliveries = edits := by
  intro text watched calls edits
  have made : (watched.run calls).1 = edits := by decide +kernel
  have last : (watched.run calls).2.snapshot = ⟨3, .empty⟩ := by decide +kernel
  obtain ⟨replayed, recorded, deliveries, outbox, heard⟩ := replays_edit_stream watched calls
  refine ⟨made, ?_, ?_, deliveries, outbox, ?_⟩
  · rw [← made, ← last]
    exact replayed
  · rw [← made]
    have reached : (watched.run calls).2.revision = 3 ∧ (watched.run calls).2.text.size = 0 := by
      rw [revision, Document.text, last]
      exact ⟨rfl, rfl⟩
    rw [← reached.1, ← reached.2]
    exact recorded fun _ => 0
  · rw [← made]
    exact heard 1 (by decide) (by decide)

end Document

end Highlighting
