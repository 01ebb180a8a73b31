import Highlighting.Proofs.Text.Origins
import Highlighting.Text.Document

/-!
Edits of a document, all or nothing.

Offsets are bytes and texts are cut between characters, so an edit has four things to be checked:
that its span is upright, that it lies in the text, and that neither end is inside a character. The
first that fails is the error (`Edit.fault?`). It is told from the UTF-8 form alone: an offset lies
between two characters if the byte there can begin one.

`Document.editInPlace` makes an edit the way it is made in memory. The offsets become indices of
characters, the characters between them are removed and the new ones inserted, then the revision is
counted up and the subscribers are told one after another. Nothing that it changes is taken back, so
an edit is all or nothing only because every check comes before the first change. An index of a
character leads back to its offset just if the offset lies between two characters
(`Text.splitAt?_eq`); otherwise it would stand for an offset further ahead.
-/

namespace Highlighting

/-! ### Characters in their bytes -/

/-- Whether a text with these bytes can be cut at an offset: no character goes on there. -/
def startsChar (bytes : List UInt8) (offset : Nat) : Bool :=
  match bytes[offset]? with
  | none => offset = bytes.length
  | some b => b.IsUTF8FirstByte

/-- The index of the character that the byte at an offset belongs to. -/
def charIndex : List Char → Nat → Nat
  | [], _ => 0
  | c :: cs, offset => if offset < c.utf8Size then 0 else charIndex cs (offset - c.utf8Size) + 1

/-- The offset of the character at an index. -/
def charOffset (cs : List Char) (index : Nat) : Nat :=
  byteCount (cs.take index)

theorem charIndex_le_length (cs : List Char) (offset : Nat) : charIndex cs offset ≤ cs.length := by
  induction cs generalizing offset with
  | nil => exact Nat.le_refl 0
  | cons c rest ih =>
      rw [charIndex]
      split
      · exact Nat.zero_le _
      · exact Nat.succ_le_succ (ih _)

theorem charOffset_zero (cs : List Char) : charOffset cs 0 = 0 :=
  rfl

theorem charOffset_succ (c : Char) (cs : List Char) (index : Nat) :
    charOffset (c :: cs) (index + 1) = c.utf8Size + charOffset cs index :=
  rfl

/-- Characters fill the bytes before an offset exactly if the one at the offset begins there. -/
theorem countChars?_eq (count : Nat) (cs : List Char) (offset : Nat) :
    Text.countChars? count cs offset =
      if charOffset cs (charIndex cs offset) = offset then some (count + charIndex cs offset)
      else none := by
  induction cs generalizing count offset with
  | nil => cases offset <;> rfl
  | cons c rest ih =>
      have wide := c.utf8Size_pos
      cases offset with
      | zero =>
          have index : charIndex (c :: rest) 0 = 0 := if_pos wide
          rw [index, charOffset_zero, if_pos rfl]
          rfl
      | succ offset =>
          rw [Text.countChars?, Nat.succ_eq_add_one]
          -- Inside the first character the count stops at 0, whose offset is not the one asked for.
          by_cases fits : c.utf8Size ≤ offset + 1
          · have index : charIndex (c :: rest) (offset + 1) =
                charIndex rest (offset + 1 - c.utf8Size) + 1 := if_neg (Nat.not_lt.mpr fits)
            rw [if_pos fits, ih, index, charOffset_succ, Nat.add_assoc count 1, Nat.add_comm 1]
            refine if_congr ?_ rfl rfl
            omega
          · have index : charIndex (c :: rest) (offset + 1) = 0 := if_pos (Nat.lt_of_not_le fits)
            rw [if_neg fits, index, charOffset_zero, if_neg (Nat.succ_ne_zero offset).symm]

theorem startsChar_flatMap (cs : List Char) (offset : Nat) :
    startsChar (cs.flatMap String.utf8EncodeChar) offset =
      decide (charOffset cs (charIndex cs offset) = offset) := by
  induction cs generalizing offset with
  | nil => exact decide_eq_decide.mpr eq_comm
  | cons c rest ih =>
      have width : (String.utf8EncodeChar c).length = c.utf8Size := String.length_utf8EncodeChar c
      rw [List.flatMap_cons]
      by_cases own : offset < c.utf8Size
      · have index : charIndex (c :: rest) offset = 0 := if_pos own
        have within : offset < (String.utf8EncodeChar c).length := width.symm ▸ own
        have found : (String.utf8EncodeChar c ++ rest.flatMap String.utf8EncodeChar)[offset]? =
            some (String.utf8EncodeChar c)[offset] := by
          rw [List.getElem?_append_left within, List.getElem?_eq_getElem]
        unfold startsChar
        rw [found, index, charOffset_zero]
        exact decide_eq_decide.mpr (UInt8.isUTF8FirstByte_getElem_utf8EncodeChar.trans eq_comm)
      · have index : charIndex (c :: rest) offset = charIndex rest (offset - c.utf8Size) + 1 :=
          if_neg own
        have further : startsChar (String.utf8EncodeChar c ++ rest.flatMap String.utf8EncodeChar)
            offset = startsChar (rest.flatMap String.utf8EncodeChar) (offset - c.utf8Size) := by
          unfold startsChar
          rw [List.getElem?_append_right (by omega), width]
          split
          · refine decide_eq_decide.mpr ?_
            rw [List.length_append]
            omega
          · rfl
        rw [further, ih, index, charOffset_succ]
        refine decide_eq_decide.mpr ?_
        omega

namespace Text

variable {t u : Text} {e : Edit} {offset : Nat}

/-- Texts are the lists of bytes that are valid UTF-8. -/
theorem exists_bytes_eq_iff {bytes : List UInt8} :
    (∃ t : Text, t.bytes = bytes) ↔ bytes.toByteArray.IsValidUTF8 := by
  constructor
  · rintro ⟨t, rfl⟩
    exact .intro t.chars rfl
  · rintro ⟨cs, encoded⟩
    exact ⟨ofChars cs, List.toByteArray_inj.mp encoded.symm⟩

/-- A text is cut between the characters that the offset lies between. -/
theorem splitAt?_eq (t : Text) (offset : Nat) :
    t.splitAt? offset =
      if startsChar t.bytes offset then
        some (ofChars (t.chars.take (charIndex t.chars offset)),
          ofChars (t.chars.drop (charIndex t.chars offset)))
      else none := by
  unfold splitAt? bytes
  rw [countChars?_eq, startsChar_flatMap, Nat.zero_add]
  simp only [decide_eq_true_eq]
  split <;> rfl

theorem isBoundary_eq (t : Text) (offset : Nat) : t.isBoundary offset = startsChar t.bytes offset := by
  unfold isBoundary bytes
  rw [countChars?_eq, startsChar_flatMap]
  split <;> simp_all

end Text

/-! ### Faults of an edit -/

/-- The first fault of an edit of a text with these bytes. -/
def Edit.fault? (e : Edit) (bytes : List UInt8) : Option EditError :=
  if e.span.stop < e.span.start then some (.inverted e.span)
  else if bytes.length < e.span.stop then some (.outOfBounds e.span bytes.length)
  else if !startsChar bytes e.span.start then some (.notBoundary e.span.start)
  else if !startsChar bytes e.span.stop then some (.notBoundary e.span.stop)
  else none

theorem Edit.fault?_eq_none_iff {e : Edit} {bytes : List UInt8} :
    e.fault? bytes = none ↔
      e.span.start ≤ e.span.stop ∧ e.span.stop ≤ bytes.length ∧
        startsChar bytes e.span.start = true ∧ startsChar bytes e.span.stop = true := by
  unfold fault?
  grind

/-- The characters that a text has after an edit. -/
def Text.rewritten (t : Text) (e : Edit) : List Char :=
  t.chars.take (charIndex t.chars e.span.start) ++ e.text.chars ++
    t.chars.drop (charIndex t.chars e.span.stop)

/-- A text takes every edit that has no fault, and answers the first fault of any other. -/
theorem Text.apply_eq (t : Text) (e : Edit) :
    t.apply e =
      match e.fault? t.bytes with
      | some fault => .error fault
      | none => .ok (.ofChars (t.rewritten e)) := by
  unfold apply Edit.check cutAt Edit.fault?
  rw [length_bytes, splitAt?_eq, splitAt?_eq]
  split
  · rfl
  split
  · rfl
  cases startsChar t.bytes e.span.start with
  | false => rfl
  | true =>
      cases startsChar t.bytes e.span.stop with
      | false => rfl
      | true => exact congrArg Except.ok (Text.ext rfl)

theorem Document.apply_snapshot_eq (d : Document) (e : Edit) :
    d.snapshot.apply e =
      match e.fault? d.text.bytes with
      | some fault => .error fault
      | none => .ok ⟨e.revision, .ofChars (d.text.rewritten e)⟩ := by
  change (do return (⟨e.revision, ← d.text.apply e⟩ : Snapshot)) = _
  rw [Text.apply_eq]
  cases e.fault? d.text.bytes <;> rfl

theorem Document.apply_eq (d : Document) (e : Edit) :
    d.apply e =
      match e.fault? d.text.bytes with
      | some fault => .error fault
      | none => .ok (d.stamp e, d.advance (d.stamp e) (.ofChars (d.text.rewritten e))) := by
  rw [apply, Text.apply_eq]
  cases e.fault? d.text.bytes <;> rfl

/-! ### Edits in place -/

namespace Document

/-- Calls that change a document in memory. What a call has changed when it fails stays changed. -/
abbrev InPlace := EStateM EditError Document

/-- Fails at an offset inside a character. -/
def requireBoundary (offset : Nat) : InPlace Unit := do
  unless (← get).text.isBoundary offset do
    throw (.notBoundary offset)

/-- Fails for a span that is inverted or out of bounds. -/
def requireBounds (e : Edit) : InPlace Unit := do
  match e.check (← get).text.size with
  | .error fault => throw fault
  | .ok _ => return

def requireNoFault (e : Edit) : InPlace Unit := do
  requireBounds e
  requireBoundary e.span.start
  requireBoundary e.span.stop

def rewrite (change : List Char → List Char) : InPlace Unit :=
  modify fun d =>
    { d with snapshot := { d.snapshot with text := .ofChars (change d.text.chars) } }

def countUp : InPlace Revision := do
  modify fun d => { d with snapshot := { d.snapshot with revision := d.revision + 1 } }
  return (← get).revision

def tell (e : Edit) (subscriber : Nat) : InPlace Unit :=
  modify fun d => { d with outbox := d.outbox ++ [(subscriber, e)] }

/-- Removes the characters of the edit's span, inserts the new ones, and tells of it. -/
def carryOut (e : Edit) : InPlace Edit := do
  let before := (← get).text.chars
  let first := charIndex before e.span.start
  let last := charIndex before e.span.stop
  rewrite fun cs => cs.take first ++ cs.drop last
  rewrite fun cs => cs.take first ++ e.text.chars ++ cs.drop first
  let made := { e with revision := ← countUp }
  (List.range (← get).subscribers).forM fun n => tell made (n + 1)
  return made

/-- Applies an edit, one change after another. -/
def editInPlace (e : Edit) : InPlace Edit := do
  requireNoFault e
  carryOut e

theorem run_requireBoundary (d : Document) (offset : Nat) :
    (requireBoundary offset).run d =
      if startsChar d.text.bytes offset then .ok () d else .error (.notBoundary offset) d := by
  rw [requireBoundary, EStateM.run_bind, EStateM.run_get]
  dsimp only
  rw [Text.isBoundary_eq]
  split <;> rfl

theorem run_requireBounds (d : Document) (e : Edit) :
    (requireBounds e).run d =
      match e.check d.text.size with
      | .error fault => .error fault d
      | .ok _ => .ok () d := by
  rw [requireBounds, EStateM.run_bind, EStateM.run_get]
  dsimp only
  split <;> rfl

theorem run_requireNoFault (d : Document) (e : Edit) :
    (requireNoFault e).run d =
      match e.fault? d.text.bytes with
      | some fault => .error fault d
      | none => .ok () d := by
  rw [requireNoFault, EStateM.run_bind, run_requireBounds]
  unfold Edit.check Edit.fault?
  rw [Text.length_bytes]
  by_cases inverted : e.span.stop < e.span.start
  · rw [if_pos inverted, if_pos inverted]
  by_cases outside : d.text.size < e.span.stop
  · rw [if_neg inverted, if_neg inverted, if_pos outside, if_pos outside]
  rw [if_neg inverted, if_neg inverted, if_neg outside, if_neg outside]
  dsimp only
  rw [EStateM.run_bind, run_requireBoundary]
  cases startsChar d.text.bytes e.span.start with
  | false => rfl
  | true =>
      change (requireBoundary e.span.stop).run d = _
      rw [run_requireBoundary]
      cases startsChar d.text.bytes e.span.stop <;> rfl

theorem run_forM_tell (made : Edit) (subscribers : List Nat) (d : Document) :
    (subscribers.forM fun n => tell made (n + 1)).run d =
      .ok () { d with outbox := d.outbox ++ subscribers.map fun n => (n + 1, made) } := by
  induction subscribers generalizing d with
  | nil =>
      rw [List.map_nil, List.append_nil]
      rfl
  | cons n rest ih =>
      rw [List.forM_eq_forM, List.forM_cons, EStateM.run_bind]
      change (rest.forM fun n => tell made (n + 1)).run
        { d with outbox := d.outbox ++ [(n + 1, made)] } = _
      rw [ih, List.map_cons, List.append_assoc]
      rfl

/-- The place where characters were removed is the place where the others were removed from. -/
theorem insert_after_remove {cs new : List Char} {first last : Nat} (within : first ≤ cs.length) :
    (cs.take first ++ cs.drop last).take first ++ new ++ (cs.take first ++ cs.drop last).drop first =
      cs.take first ++ new ++ cs.drop last := by
  have length : (cs.take first).length = first := List.length_take_of_le within
  rw [List.take_left' length, List.drop_left' length]

theorem run_carryOut (d : Document) (e : Edit) :
    (carryOut e).run d =
      .ok (d.stamp e) (d.advance (d.stamp e) (.ofChars (d.text.rewritten e))) := by
  have text : Text.ofChars _ = Text.ofChars (d.text.rewritten e) :=
    congrArg Text.ofChars (insert_after_remove (charIndex_le_length d.text.chars e.span.start))
  unfold carryOut rewrite countUp
  simp only [EStateM.run_bind, EStateM.run_get, EStateM.run_modify, run_forM_tell, EStateM.run_pure]
  exact congrArg (fun text => EStateM.Result.ok (d.stamp e) (d.advance (d.stamp e) text)) text

/-- Made in place, an edit comes to the same document, and a rejected one leaves it as it was. -/
theorem run_editInPlace (d : Document) (e : Edit) :
    (editInPlace e).run d =
      match d.apply e with
      | .error fault => .error fault d
      | .ok (made, after) => .ok made after := by
  rw [editInPlace, EStateM.run_bind, run_requireNoFault, apply_eq]
  cases e.fault? d.text.bytes with
  | some fault => rfl
  | none => exact run_carryOut d e

/-- An edit is taken exactly if its span is upright and in the text and both ends are boundaries of
characters, and else the answer is its first fault. When it is taken, the bytes of its span are
replaced and are valid UTF-8 again, the revision is one higher and in the answered edit, and every
subscriber is told of that edit once, in order of subscription. When it is not, nothing has changed,
although it is made in place. -/
theorem edits_are_atomic (d : Document) (e : Edit) :
    (e.fault? d.text.bytes = none ↔
      e.span.start ≤ e.span.stop ∧ e.span.stop ≤ d.text.size ∧
        startsChar d.text.bytes e.span.start ∧ startsChar d.text.bytes e.span.stop) ∧
    match e.fault? d.text.bytes with
    | some fault =>
      d.apply e = .error fault ∧ d.snapshot.apply e = .error fault ∧
        (editInPlace e).run d = .error fault d
    | none =>
      ∃ made after, d.apply e = .ok (made, after) ∧
        d.snapshot.apply e = .ok ⟨e.revision, after.text⟩ ∧
        (editInPlace e).run d = .ok made after ∧
        made = { e with revision := d.revision + 1 } ∧
        after.revision = d.revision + 1 ∧
        after.text.bytes =
          d.text.bytes.take e.span.start ++ e.text.bytes ++ d.text.bytes.drop e.span.stop ∧
        after.text.bytes.toByteArray.IsValidUTF8 ∧
        after.subscribers = d.subscribers ∧
        after.outbox = d.outbox ++ (List.range d.subscribers).map fun n => (n + 1, made) := by
  have answer := apply_eq d e
  have text := Text.apply_eq d.text e
  have snapshot := apply_snapshot_eq d e
  have inPlace := run_editInPlace d e
  refine ⟨by rw [Edit.fault?_eq_none_iff, Text.length_bytes], ?_⟩
  cases found : e.fault? d.text.bytes with
  | some fault =>
      rw [found] at answer text snapshot
      rw [answer] at inPlace
      exact ⟨answer, snapshot, inPlace⟩
  | none =>
      rw [found] at answer text snapshot
      rw [answer] at inPlace
      refine ⟨_, _, answer, snapshot, inPlace, rfl, rfl,
        Text.bytes_of_apply text, Text.exists_bytes_eq_iff.mp ⟨_, rfl⟩, rfl, rfl⟩

/-- The second byte of `é` is no place to cut. -/
example : (Edit.delete ⟨2, 3⟩).fault? (Text.ofChars ['a', 'é']).bytes = some (.notBoundary 2) := by
  decide

end Document

end Highlighting
