import Highlighting.Proofs.Text.Origins
import Highlighting.Proofs.Text.Rows

/-!
Points under an edit.

An edit keeps the bytes behind its span. A point behind it is therefore reached from the end of the
new bytes over the same bytes as before from the end of the span: as long as these hold no newline
the column moves along with that end, and from the first newline on only the row does.
-/

namespace Highlighting

/-! ### The order of points -/

namespace Point

/-- By row, then by column. -/
instance : LT Point where
  lt p q := p.row < q.row ∨ p.row = q.row ∧ p.column < q.column

theorem lt_iff {p q : Point} : p < q ↔ p.row < q.row ∨ p.row = q.row ∧ p.column < q.column :=
  Iff.rfl

variable {p : Point} {bytes : List UInt8}

theorem lt_advance (nonempty : bytes ≠ []) : p < p.advance bytes := by
  have := List.length_pos_iff.mpr nonempty
  rw [lt_iff, advance]
  split
  · rename_i broken
    have := List.count_pos_iff.mpr broken
    exact Or.inl (by dsimp only; omega)
  · exact Or.inr ⟨rfl, by dsimp only; omega⟩

/-- Over the same bytes two points move alike: their columns on the row that they start from, their
rows on any other. -/
theorem advance_alike (p q : Point) (bytes : List UInt8) :
    if (p.advance bytes).row = p.row then
      (q.advance bytes).row = q.row ∧
        (q.advance bytes).column + p.column = q.column + (p.advance bytes).column
    else
      (q.advance bytes).row + p.row = q.row + (p.advance bytes).row ∧
        (q.advance bytes).column = (p.advance bytes).column := by
  by_cases broken : newline ∈ bytes
  · rw [if_neg (mt row_advance_eq_iff.mp (not_not.mpr broken))]
    simp only [advance, if_pos broken]
    exact ⟨by omega, trivial⟩
  · rw [if_pos (row_advance_eq_iff.mpr broken)]
    simp only [advance, if_neg broken]
    exact ⟨trivial, by omega⟩

end Point

/-! ### The points of a text -/

namespace Text

variable {t u : Text} {e : Edit} {o p : Nat}

theorem bytesBetween_ne_nil (lt : o < p) (inside : p ≤ t.size) : t.bytesBetween o p ≠ [] := by
  rw [← List.length_pos_iff, bytesBetween, List.length_take, List.length_drop, t.length_bytes]
  omega

theorem pointAt_lt_pointAt (lt : o < p) (inside : p ≤ t.size) : t.pointAt o < t.pointAt p := by
  rw [pointAt_eq_advance (Nat.le_of_lt lt)]
  exact Point.lt_advance (bytesBetween_ne_nil lt inside)

theorem pointAt_of_size_le (past : t.size ≤ o) : t.pointAt o = t.pointAt t.size := by
  rw [← t.length_bytes] at past ⊢
  unfold pointAt
  rw [List.take_of_length_le past, List.take_length]

/-- The point of an offset by its row and the start of that row, which have to be there. -/
def lookUpPoint? (t : Text) (offset : Nat) : Option Point := do
  let offset := min offset t.size
  let row ← t.rowOf? offset
  let start ← rowStart? t.bytes row
  some ⟨row, offset - start⟩

theorem lookUpPoint?_eq (t : Text) (o : Nat) : t.lookUpPoint? o = some (t.pointAt o) := by
  have inside : min o t.size ≤ t.size := Nat.min_le_right _ _
  have same : t.pointAt (min o t.size) = t.pointAt o := by
    rcases Nat.le_total o t.size with before | past
    · rw [Nat.min_eq_left before]
    · rw [Nat.min_eq_right past, pointAt_of_size_le past]
  unfold lookUpPoint? rowOf?
  simp only [if_pos inside, Option.bind_eq_bind, Option.bind_some, rowStart?_row inside]
  rw [← column_pointAt inside, same]

/-! ### Points of an edited text -/

theorem pointAt_of_apply_before (applied : t.apply e = .ok u) (before : o ≤ e.span.start) :
    u.pointAt o = t.pointAt o := by
  obtain ⟨upright, fits, -⟩ := size_of_apply applied
  have length := length_take_bytes (Nat.le_trans upright fits)
  unfold pointAt
  rw [bytes_of_apply applied, Span.substitute, List.append_assoc,
    List.take_append_of_le_length (length.symm ▸ before), List.take_take, Nat.min_eq_left before]

/-- The bytes behind the span follow the new ones. -/
theorem bytesBetween_of_apply (applied : t.apply e = .ok u) (behind : e.span.stop ≤ o) :
    u.bytesBetween (e.span.start + e.text.size) (e.splice.image o) =
      t.bytesBetween e.span.stop o := by
  obtain ⟨upright, fits, -⟩ := size_of_apply applied
  have length : (t.bytes.take e.span.start ++ e.text.bytes).length =
      e.span.start + e.text.size := by
    rw [List.length_append, length_take_bytes (Nat.le_trans upright fits), length_bytes]
  have distance : e.splice.image o - (e.span.start + e.text.size) = o - e.span.stop := by
    simp only [Splice.image, Edit.splice]
    omega
  unfold bytesBetween
  rw [bytes_of_apply applied, Span.substitute, List.drop_left' length, distance]

end Text

/-- On the way through a text points rise strictly, and behind its end they stay. Looking one up by
its row finds it. An edit leaves the points up to its span. A point behind the span has the row of the
end of the new bytes if it had the row of the end of the span, at the same distance in columns;
otherwise it has its column, at the same distance in rows. -/
theorem Snapshot.points_move_with_edits (s : Snapshot) :
    (∀ o, s.text.lookUpPoint? o = some (s.text.pointAt o)) ∧
      (∀ a b, a < b → b ≤ s.size → s.text.pointAt a < s.text.pointAt b) ∧
      (∀ b, s.size ≤ b → s.text.pointAt b = s.text.pointAt s.size) ∧
      ∀ (e : Edit) (u : Snapshot), s.apply e = .ok u →
        let before := s.text.pointAt
        let after := u.text.pointAt
        let stop := e.span.stop
        let newStop := e.span.start + e.text.size
        (∀ b, b ≤ e.span.start → after b = before b) ∧
          ∀ b, stop ≤ b → b ≤ s.size →
            let q := b - stop + newStop
            if (before b).row = (before stop).row then
              (after q).row = (after newStop).row ∧
                (after q).column + (before stop).column =
                  (after newStop).column + (before b).column
            else
              (after q).row + (before stop).row = (after newStop).row + (before b).row ∧
                (after q).column = (before b).column := by
  refine ⟨s.text.lookUpPoint?_eq, fun a b => Text.pointAt_lt_pointAt,
    fun b => Text.pointAt_of_size_le, ?_⟩
  intro e u applied before after stop newStop
  have text := (text_of_apply applied).1
  refine ⟨fun b => Text.pointAt_of_apply_before text, ?_⟩
  intro b behind inside q
  have image : q = e.splice.image b := (Nat.add_assoc _ _ _).symm
  have old : before b = (before stop).advance (s.text.bytesBetween stop b) :=
    Text.pointAt_eq_advance behind
  have new : after q = (after newStop).advance (s.text.bytesBetween stop b) := by
    rw [← Text.bytesBetween_of_apply text behind, ← image]
    exact Text.pointAt_eq_advance (Nat.le_add_left _ _)
  -- Both points go on over the same bytes, so they differ as the points that they start from do.
  rw [old, new]
  exact Point.advance_alike _ _ _

/-- The removed text has one newline and the inserted one two. The byte `d` stays on the row of the
end of the new bytes, and `e` is on the next one. -/
theorem Snapshot.points_behind_new_rows :
    let s : Snapshot := ⟨0, .ofChars ['a', 'b', '\n', 'c', 'd', '\n', 'e']⟩
    let e : Edit := .replace ⟨1, 3⟩ (.ofChars ['é', '\n', '\n', 'x'])
    let u : Snapshot := ⟨0, .ofChars ['a', 'é', '\n', '\n', 'x', 'c', 'd', '\n', 'e']⟩
    s.apply e = .ok u ∧ s.text.pointAt 3 = ⟨1, 0⟩ ∧ u.text.pointAt 6 = ⟨2, 1⟩ ∧
      s.text.pointAt 4 = ⟨1, 1⟩ ∧ (u.text.pointAt 7).column + 0 = 1 + 1 ∧
      s.text.pointAt 6 = ⟨2, 0⟩ ∧ (u.text.pointAt 9).row + 1 = 2 + 2 := by
  intro s e u
  have applied : s.apply e = .ok u := by decide
  have stop : s.text.pointAt 3 = ⟨1, 0⟩ := by decide
  have newStop : u.text.pointAt 6 = ⟨2, 1⟩ := by decide
  have near : s.text.pointAt 4 = ⟨1, 1⟩ := by decide
  have far : s.text.pointAt 6 = ⟨2, 0⟩ := by decide
  obtain ⟨-, -, -, moved⟩ := points_move_with_edits s
  obtain ⟨-, behind⟩ := moved e u applied
  have column := (behind 4 (by decide) (by decide)).2
  have row := (behind 6 (by decide) (by decide)).1
  exact ⟨applied, stop, newStop, near, column, far, row⟩

end Highlighting
