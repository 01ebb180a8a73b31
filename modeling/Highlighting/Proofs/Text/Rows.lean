import Highlighting.Proofs.Batch
import Highlighting.Text.Lines

/-!
Rows of a text.

The point of an offset counts the newlines before it and the bytes behind the last of them, so it is
reached from the point of any earlier offset by going over the bytes between (`Point.advance`), and
the row stays as long as these hold no newline. An offset can also be looked up: from its row, which
counts newlines, to the start of that row. Both ways meet in the start of the line (`rowStart?_row`).
-/

namespace Highlighting

/-! ### Going over bytes -/

theorem tailLength_concat (bytes : List UInt8) (b : UInt8) :
    tailLength (bytes ++ [b]) = if b = newline then 0 else tailLength bytes + 1 := by
  unfold tailLength
  rw [List.reverse_concat, List.takeWhile_cons]
  by_cases last : b = newline <;> simp [last]

theorem tailLength_append (front back : List UInt8) :
    tailLength (front ++ back) =
      if newline ∈ back then tailLength back else tailLength front + back.length := by
  induction back using List.reverseRecOn with
  | nil => rw [List.append_nil, if_neg List.not_mem_nil, List.length_nil, Nat.add_zero]
  | append_singleton back b ih =>
      have broken : newline ∈ back ++ [b] ↔ newline ∈ back ∨ b = newline := by
        rw [List.mem_append, List.mem_singleton, eq_comm (a := newline)]
      rw [← List.append_assoc, tailLength_concat, tailLength_concat, ih, if_congr broken rfl rfl]
      by_cases last : b = newline
      · rw [if_pos last, if_pos (Or.inr last), if_pos last]
      · rw [if_neg last, if_neg last, if_congr (or_iff_left last) rfl rfl, List.length_append,
          List.length_singleton]
        split <;> rfl

namespace Point

/-- The point at the end of some bytes. -/
def behind (bytes : List UInt8) : Point :=
  ⟨bytes.count newline, tailLength bytes⟩

/-- The point that further bytes lead to. -/
def advance (p : Point) (bytes : List UInt8) : Point :=
  if newline ∈ bytes then ⟨p.row + bytes.count newline, tailLength bytes⟩
  else ⟨p.row, p.column + bytes.length⟩

variable {p : Point} {bytes : List UInt8}

theorem behind_append (front back : List UInt8) :
    behind (front ++ back) = (behind front).advance back := by
  unfold behind advance
  rw [List.count_append, tailLength_append]
  split
  · rfl
  · rename_i unbroken
    rw [List.count_eq_zero_of_not_mem unbroken, Nat.add_zero]

theorem row_advance (p : Point) (bytes : List UInt8) :
    (p.advance bytes).row = p.row + bytes.count newline := by
  unfold advance
  split
  · rfl
  · rename_i unbroken
    rw [List.count_eq_zero_of_not_mem unbroken, Nat.add_zero]

/-- The row stays over bytes without a newline only. -/
theorem row_advance_eq_iff : (p.advance bytes).row = p.row ↔ newline ∉ bytes := by
  rw [row_advance, Nat.add_eq_left, List.count_eq_zero]

end Point

/-! ### Starts of lines -/

section Bytes

variable {bytes : List UInt8} {p : Nat}

theorem tailLength_le (bytes : List UInt8) : tailLength bytes ≤ bytes.length := by
  rw [tailLength, ← bytes.length_reverse]
  exact (List.takeWhile_prefix _).length_le

theorem not_newline_of_tail (inTail : bytes.length ≤ p + tailLength bytes) :
    bytes[p]? ≠ some newline := by
  induction bytes using List.reverseRecOn with
  | nil => nofun
  | append_singleton front b ih =>
      rw [tailLength_concat, List.length_append, List.length_singleton] at inTail
      rcases Nat.lt_trichotomy p front.length with before | rfl | past
      · rw [List.getElem?_append_left before]
        refine ih ?_
        split at inTail <;> omega
      · rw [List.getElem?_concat_length]
        intro last
        rw [if_pos (Option.some.inj last)] at inTail
        omega
      · rw [List.getElem?_eq_none (by rw [List.length_append, List.length_singleton]; omega)]
        nofun

theorem newline_before_tail (bytes : List UInt8) :
    tailLength bytes = bytes.length ∨
      ∃ p, p + 1 + tailLength bytes = bytes.length ∧ bytes[p]? = some newline := by
  induction bytes using List.reverseRecOn with
  | nil => exact Or.inl rfl
  | append_singleton front b ih =>
      rw [tailLength_concat, List.length_append, List.length_singleton]
      by_cases last : b = newline
      · exact Or.inr ⟨front.length, by rw [if_pos last], by rw [List.getElem?_concat_length, last]⟩
      · rw [if_neg last]
        rcases ih with whole | ⟨p, rest, found⟩
        · exact Or.inl (by rw [whole])
        · refine Or.inr ⟨p, by omega, ?_⟩
          rw [List.getElem?_append_left (by omega), found]

end Bytes

namespace Text

variable {t : Text} {a o p : Nat}

/-- The byte at an offset is a newline. -/
def BreaksAt (t : Text) (o : Nat) : Prop :=
  t.bytes[o]? = some newline

def StartsLine (t : Text) (o : Nat) : Prop :=
  o = 0 ∨ ∃ p, p + 1 = o ∧ t.BreaksAt p

theorem length_take_bytes (inside : o ≤ t.size) : (t.bytes.take o).length = o :=
  List.length_take_of_le (t.length_bytes.symm ▸ inside)

theorem lineStart_le (t : Text) (o : Nat) : t.lineStart o ≤ o :=
  Nat.sub_le _ _

theorem startsLine_lineStart (inside : o ≤ t.size) : t.StartsLine (t.lineStart o) := by
  have length := length_take_bytes inside
  unfold lineStart
  rcases newline_before_tail (t.bytes.take o) with whole | ⟨p, rest, found⟩
  · exact Or.inl (by omega)
  · refine Or.inr ⟨p, by omega, ?_⟩
    rw [List.getElem?_take_of_lt (by omega)] at found
    exact found

theorem not_breaksAt_of_lineStart_le (inside : o ≤ t.size) (start : t.lineStart o ≤ p)
    (before : p < o) : ¬t.BreaksAt p := by
  have length := length_take_bytes inside
  unfold lineStart at start
  have unbroken : (t.bytes.take o)[p]? ≠ some newline := not_newline_of_tail (by omega)
  rw [List.getElem?_take_of_lt before] at unbroken
  exact unbroken

/-- No line starts between the start of an offset's line and the offset. -/
theorem le_lineStart (inside : o ≤ t.size) (starts : t.StartsLine a) (le : a ≤ o) :
    a ≤ t.lineStart o := by
  rcases starts with rfl | ⟨p, rfl, broken⟩
  · exact Nat.zero_le _
  · by_contra behind
    exact not_breaksAt_of_lineStart_le inside (by omega) le broken

/-! ### The row of an offset -/

/-- The bytes of a text from one offset to another. -/
def bytesBetween (t : Text) (o p : Nat) : List UInt8 :=
  (t.bytes.drop o).take (p - o)

theorem pointAt_eq_advance (le : o ≤ p) :
    t.pointAt p = (t.pointAt o).advance (t.bytesBetween o p) := by
  have parts : t.bytes.take p = t.bytes.take o ++ t.bytesBetween o p := by
    rw [bytesBetween, ← List.take_add, Nat.add_sub_of_le le]
  change Point.behind (t.bytes.take p) = _
  rw [parts]
  exact Point.behind_append _ _

theorem newline_mem_bytesBetween_iff :
    newline ∈ t.bytesBetween o p ↔ ∃ q, o ≤ q ∧ q < p ∧ t.BreaksAt q := by
  rw [bytesBetween, List.mem_iff_getElem?]
  constructor
  · rintro ⟨i, found⟩
    rw [List.getElem?_take, Option.ite_none_right_eq_some, List.getElem?_drop] at found
    obtain ⟨before, found⟩ := found
    exact ⟨o + i, by omega, by omega, found⟩
  · rintro ⟨q, behind, before, broken⟩
    refine ⟨q - o, ?_⟩
    rw [List.getElem?_take_of_lt (by omega), List.getElem?_drop, Nat.add_sub_of_le behind]
    exact broken

/-- Offsets have the same row if there is no newline from the first to the second. -/
theorem row_eq_iff (le : o ≤ p) :
    (t.pointAt p).row = (t.pointAt o).row ↔ ∀ q, o ≤ q → q < p → ¬t.BreaksAt q := by
  rw [pointAt_eq_advance le, Point.row_advance_eq_iff, newline_mem_bytesBetween_iff]
  push Not
  rfl

theorem row_lineStart (inside : o ≤ t.size) :
    (t.pointAt (t.lineStart o)).row = (t.pointAt o).row :=
  ((row_eq_iff (t.lineStart_le o)).mpr fun _ => not_breaksAt_of_lineStart_le inside).symm

theorem column_pointAt (inside : o ≤ t.size) : (t.pointAt o).column = o - t.lineStart o := by
  have tail := tailLength_le (t.bytes.take o)
  rw [length_take_bytes inside] at tail
  unfold lineStart
  change tailLength (t.bytes.take o) = _
  omega

/-! ### Looking rows up -/

/-- The row of an offset in the text. -/
def rowOf? (t : Text) (offset : Nat) : Option Nat :=
  if offset ≤ t.size then some (t.pointAt offset).row else none

/-- The start of a row, if the bytes have so many. -/
def rowStart? : List UInt8 → Nat → Option Nat
  | _, 0 => some 0
  | [], _ + 1 => none
  | b :: rest, row + 1 =>
    (rowStart? rest (if b = newline then row else row + 1)).map (· + 1)

theorem rowStart?_append (front rest : List UInt8) :
    rowStart? (front ++ newline :: rest) (front.count newline + 1) = some (front.length + 1) := by
  induction front with
  | nil => simp [rowStart?]
  | cons b front ih =>
      rw [List.cons_append, rowStart?, List.count_cons, List.length_cons]
      by_cases ended : b = newline
      · simp [ended, ih]
      · simp [ended, ih]

theorem row_add_one (broken : t.BreaksAt o) :
    (t.pointAt (o + 1)).row = (t.pointAt o).row + 1 := by
  change (t.bytes.take (o + 1)).count newline = (t.bytes.take o).count newline + 1
  rw [List.take_add_one, broken, Option.toList_some, List.count_append, List.count_singleton_self]

theorem rowStart?_of_startsLine (starts : t.StartsLine o) :
    rowStart? t.bytes (t.pointAt o).row = some o := by
  rcases starts with rfl | ⟨p, rfl, broken⟩
  · exact rowStart?.eq_1 _
  · obtain ⟨within, found⟩ := List.getElem?_eq_some_iff.mp broken
    have parts : t.bytes = t.bytes.take p ++ newline :: t.bytes.drop (p + 1) := by
      rw [← found, List.getElem_cons_drop, List.take_append_drop]
    have start := rowStart?_append (t.bytes.take p) (t.bytes.drop (p + 1))
    rw [← parts, List.length_take_of_le (Nat.le_of_lt within)] at start
    rw [row_add_one broken]
    exact start

theorem rowStart?_row (inside : o ≤ t.size) :
    rowStart? t.bytes (t.pointAt o).row = some (t.lineStart o) := by
  rw [← row_lineStart inside]
  exact rowStart?_of_startsLine (startsLine_lineStart inside)

end Text

end Highlighting
