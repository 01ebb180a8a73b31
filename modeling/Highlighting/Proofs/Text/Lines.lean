import Highlighting.Proofs.Text.Rows

/-!
Whole lines.

A line starts at the start of the text or behind a newline, and ends at the end of the text or behind
a newline. To expand a span is to go back from its first byte to the start of a line and on from its
last byte to the end of one, so the result is the smallest run of whole lines around it; the rest
that one wants of it, such as that a second expansion adds nothing, is a matter of being smallest.
A span may end right behind a newline: the next line is then no part of it, which is why the last
byte counts and not the end.

An empty span has no last byte, and grows to the line that holds its offset. That line is empty at
the end of a text whose last line was ended, and nowhere else.
-/

namespace Highlighting

/-! ### The first line of some bytes -/

section Bytes

variable {bytes : List UInt8} {p : Nat}

theorem headLength_cons (b : UInt8) (bytes : List UInt8) :
    headLength (b :: bytes) = if b = newline then 1 else headLength bytes + 1 := by
  unfold headLength
  by_cases first : b = newline
  · rw [if_pos first, List.takeWhile_cons_of_neg (by simpa using first), List.length_cons,
      List.length_nil]
    omega
  · rw [if_neg first, List.takeWhile_cons_of_pos (by simpa using first), List.length_cons,
      List.length_cons]
    omega

theorem headLength_le (bytes : List UInt8) : headLength bytes ≤ bytes.length :=
  Nat.min_le_right _ _

theorem not_newline_of_head (inHead : p + 1 < headLength bytes) : bytes[p]? ≠ some newline := by
  induction bytes generalizing p with
  | nil => nofun
  | cons b rest ih =>
      rw [headLength_cons] at inHead
      split at inHead
      · omega
      · rename_i other
        cases p with
        | zero => exact fun first => other (Option.some.inj first)
        | succ p => exact ih (by omega)

theorem newline_ends_head (bytes : List UInt8) :
    headLength bytes = bytes.length ∧ newline ∉ bytes ∨
      ∃ p, p + 1 = headLength bytes ∧ bytes[p]? = some newline := by
  induction bytes with
  | nil => exact Or.inl ⟨rfl, List.not_mem_nil⟩
  | cons b rest ih =>
      rw [headLength_cons, List.length_cons]
      by_cases first : b = newline
      · exact Or.inr ⟨0, by rw [if_pos first], by rw [first]; rfl⟩
      · rw [if_neg first]
        rcases ih with ⟨whole, unbroken⟩ | ⟨p, stop, found⟩
        · refine Or.inl ⟨by rw [whole], ?_⟩
          rw [List.mem_cons, not_or]
          exact ⟨fun found => first found.symm, unbroken⟩
        · exact Or.inr ⟨p + 1, by rw [stop], found⟩

end Bytes

/-! ### Ends of lines -/

namespace Text

def EndsLine (t : Text) (o : Nat) : Prop :=
  o = t.size ∨ ∃ p, p + 1 = o ∧ t.BreaksAt p

variable {t : Text} {a b o p : Nat}

theorem le_lineStop (t : Text) (o : Nat) : o ≤ t.lineStop o :=
  Nat.le_add_right _ _

theorem lineStop_le (inside : o ≤ t.size) : t.lineStop o ≤ t.size := by
  have := headLength_le (t.bytes.drop o)
  rw [List.length_drop, t.length_bytes] at this
  unfold lineStop
  omega

theorem lt_lineStop (inside : o < t.size) : o < t.lineStop o := by
  have rest : t.bytes.drop o ≠ [] := by
    rw [← List.length_pos_iff, List.length_drop, t.length_bytes]
    omega
  exact Nat.lt_add_of_pos_right (headLength_pos rest)

theorem lineStop_cases (inside : o ≤ t.size) :
    t.lineStop o = t.size ∧ newline ∉ t.bytes.drop o ∨
      ∃ p, o ≤ p ∧ p + 1 = t.lineStop o ∧ t.BreaksAt p := by
  unfold lineStop
  rcases newline_ends_head (t.bytes.drop o) with ⟨whole, unbroken⟩ | ⟨p, stop, found⟩
  · rw [List.length_drop, t.length_bytes] at whole
    exact Or.inl ⟨by omega, unbroken⟩
  · rw [List.getElem?_drop] at found
    exact Or.inr ⟨o + p, by omega, by omega, found⟩

theorem endsLine_lineStop (inside : o ≤ t.size) : t.EndsLine (t.lineStop o) :=
  (lineStop_cases inside).imp And.left fun ⟨p, _, next, broken⟩ => ⟨p, next, broken⟩

theorem not_breaksAt_of_lt_lineStop (behind : o ≤ p) (stop : p + 1 < t.lineStop o) :
    ¬t.BreaksAt p := by
  unfold lineStop at stop
  have unbroken : (t.bytes.drop o)[p - o]? ≠ some newline := not_newline_of_head (by omega)
  rw [List.getElem?_drop, Nat.add_sub_of_le behind] at unbroken
  exact unbroken

/-- No line ends between an offset and the end of its line. -/
theorem lineStop_le_of_endsLine (inside : o ≤ t.size) (ends : t.EndsLine b) (lt : o < b) :
    t.lineStop o ≤ b := by
  rcases ends with rfl | ⟨p, rfl, broken⟩
  · exact lineStop_le inside
  · by_contra before
    exact not_breaksAt_of_lt_lineStop (Nat.le_of_lt_succ lt) (Nat.lt_of_not_le before) broken

/-- The line of an offset has the bytes of its row. -/
theorem mem_line_iff (inside : p ≤ t.size) :
    o ∈ (⟨t.lineStart p, t.lineStop p⟩ : Span) ↔
      o < t.size ∧ (t.pointAt o).row = (t.pointAt p).row := by
  change t.lineStart p ≤ o ∧ o < t.lineStop p ↔ _
  constructor
  · rintro ⟨start, stop⟩
    refine ⟨Nat.lt_of_lt_of_le stop (lineStop_le inside), ?_⟩
    -- A line has no newline before its last byte, and rows change behind newlines only.
    rcases Nat.le_total o p with before | behind
    · refine ((row_eq_iff before).mpr fun q le lt => ?_).symm
      exact not_breaksAt_of_lineStart_le inside (Nat.le_trans start le) lt
    · exact (row_eq_iff behind).mpr fun q le lt => not_breaksAt_of_lt_lineStop le (by omega)
  · rintro ⟨within, row⟩
    constructor
    · by_contra before
      have := t.lineStart_le p
      rcases startsLine_lineStart inside with first | ⟨q, next, broken⟩
      · omega
      · exact (row_eq_iff (by omega)).mp row.symm q (by omega) (by omega) broken
    · by_contra behind
      have := t.le_lineStop p
      rcases endsLine_lineStop inside with last | ⟨q, next, broken⟩
      · omega
      · have : p < t.lineStop p := lt_lineStop (by omega)
        exact (row_eq_iff (by omega)).mp row q (by omega) (by omega) broken

/-! ### Looking lines up by their row -/

def rowCount (t : Text) : Nat :=
  t.bytes.count newline + 1

/-- The end of a row: the start of the next one, or of the text for the last. -/
def rowStop? (t : Text) (row : Nat) : Option Nat :=
  if row + 1 < t.rowCount then rowStart? t.bytes (row + 1) else some t.size

/-- The lines of a span by the rows of its ends, where each row has to be there. -/
def lookUpLines? (t : Text) (s : Span) : Option Span := do
  let s := s.clampTo t.size
  let first ← t.rowOf? s.start
  let last ← t.rowOf? (max (s.stop - 1) s.start)
  let start ← rowStart? t.bytes first
  let stop ← t.rowStop? last
  some (.ofEnds start (max stop s.stop))

theorem rowStop?_row (inside : o ≤ t.size) :
    t.rowStop? (t.pointAt o).row = some (t.lineStop o) := by
  unfold rowStop? rowCount
  rcases lineStop_cases inside with ⟨stop, unbroken⟩ | ⟨p, behind, next, broken⟩
  · have last : (t.pointAt t.size).row = (t.pointAt o).row := by
      rw [pointAt_eq_advance inside, Point.row_advance_eq_iff]
      exact fun found => unbroken (List.mem_of_mem_take found)
    have all : (t.pointAt t.size).row = t.bytes.count newline := by
      rw [← t.length_bytes, pointAt, List.take_length]
    rw [if_neg (by omega), stop]
  · have row : (t.pointAt (t.lineStop o)).row = (t.pointAt o).row + 1 := by
      rw [← next, row_add_one broken, (row_eq_iff behind).mpr fun q le lt =>
        not_breaksAt_of_lt_lineStop le (by omega)]
    have rows : (t.pointAt (t.lineStop o)).row ≤ t.bytes.count newline :=
      (List.take_sublist _ _).count_le newline
    rw [if_pos (by omega), ← row]
    exact rowStart?_of_startsLine (Or.inr ⟨p, next, broken⟩)

end Text

/-! ### The lines of a span -/

namespace Span

/-- No end of `s` lies outside `r`. -/
def Encloses (r s : Span) : Prop :=
  r.start ≤ s.start ∧ s.stop ≤ r.stop

variable {q r s : Span}

theorem Encloses.trans (outer : q.Encloses r) (inner : r.Encloses s) : q.Encloses s :=
  ⟨Nat.le_trans outer.1 inner.1, Nat.le_trans inner.2 outer.2⟩

theorem Encloses.antisymm (here : r.Encloses s) (there : s.Encloses r) : r = s := by
  cases r
  cases s
  exact congr (congrArg Span.mk (Nat.le_antisymm here.1 there.1))
    (Nat.le_antisymm there.2 here.2)

theorem start_le_stop_clampTo (s : Span) (limit : Nat) :
    (s.clampTo limit).start ≤ (s.clampTo limit).stop :=
  start_le_stop_ofEnds _ _

theorem stop_clampTo_le (s : Span) (limit : Nat) : (s.clampTo limit).stop ≤ limit :=
  Nat.max_le.mpr ⟨Nat.min_le_right _ _, Nat.min_le_right _ _⟩

theorem clampTo_of_stop_le {limit : Nat} (upright : s.start ≤ s.stop) (inside : s.stop ≤ limit) :
    s.clampTo limit = s := by
  unfold clampTo ofEnds
  rw [Nat.min_eq_left inside, Nat.min_eq_left (Nat.le_trans upright inside),
    Nat.max_eq_right upright]

end Span

namespace Text

/-- A span that starts with a line and ends with one. -/
structure WholeLines (t : Text) (r : Span) : Prop where
  start : t.StartsLine r.start
  stop : t.EndsLine r.stop

variable {t : Text} {r s : Span}

theorem expandToLines_of_nonempty (nonempty : (s.clampTo t.size).start < (s.clampTo t.size).stop) :
    t.expandToLines s =
      ⟨t.lineStart (s.clampTo t.size).start, t.lineStop ((s.clampTo t.size).stop - 1)⟩ := by
  unfold expandToLines
  dsimp only
  rw [Nat.max_eq_left (Nat.le_sub_one_of_lt nonempty)]

theorem expandToLines_of_empty (empty : ¬(s.clampTo t.size).start < (s.clampTo t.size).stop) :
    t.expandToLines s =
      ⟨t.lineStart (s.clampTo t.size).start, t.lineStop (s.clampTo t.size).start⟩ := by
  unfold expandToLines
  dsimp only
  rw [Nat.max_eq_right (by omega)]

/-- The offset that the last line is looked up at is in the text. -/
theorem last_le (t : Text) (s : Span) :
    max ((s.clampTo t.size).stop - 1) (s.clampTo t.size).start ≤ t.size := by
  have upright := s.start_le_stop_clampTo t.size
  have inside := s.stop_clampTo_le t.size
  omega

theorem start_clampTo_le (t : Text) (s : Span) : (s.clampTo t.size).start ≤ t.size :=
  Nat.le_trans (s.start_le_stop_clampTo t.size) (s.stop_clampTo_le t.size)

theorem wholeLines_expandToLines (t : Text) (s : Span) : t.WholeLines (t.expandToLines s) where
  start := startsLine_lineStart (t.start_clampTo_le s)
  stop := endsLine_lineStop (t.last_le s)

theorem stop_expandToLines_le (t : Text) (s : Span) : (t.expandToLines s).stop ≤ t.size :=
  lineStop_le (t.last_le s)

theorem encloses_expandToLines (t : Text) (s : Span) :
    (t.expandToLines s).Encloses (s.clampTo t.size) := by
  refine ⟨t.lineStart_le _, ?_⟩
  have upright := s.start_le_stop_clampTo t.size
  have inside := s.stop_clampTo_le t.size
  by_cases nonempty : (s.clampTo t.size).start < (s.clampTo t.size).stop
  · rw [expandToLines_of_nonempty nonempty]
    have : (s.clampTo t.size).stop - 1 < t.lineStop ((s.clampTo t.size).stop - 1) :=
      lt_lineStop (by omega)
    dsimp only
    omega
  · rw [expandToLines_of_empty nonempty]
    have := t.le_lineStop (s.clampTo t.size).start
    dsimp only
    omega

theorem lookUpLines?_eq (t : Text) (s : Span) : t.lookUpLines? s = some (t.expandToLines s) := by
  have upright := Nat.le_trans (t.encloses_expandToLines s).1
    (Nat.le_trans (s.start_le_stop_clampTo t.size) (t.encloses_expandToLines s).2)
  have stop := (t.encloses_expandToLines s).2
  unfold lookUpLines? rowOf?
  simp only [if_pos (t.start_clampTo_le s), if_pos (t.last_le s), Option.bind_eq_bind,
    Option.bind_some, rowStart?_row (t.start_clampTo_le s), rowStop?_row (t.last_le s)]
  change some (Span.ofEnds (t.expandToLines s).start (max (t.expandToLines s).stop _)) = _
  rw [Span.ofEnds, Nat.max_eq_left stop, Nat.max_eq_right upright]

/-- No smaller run of whole lines has all of the span. -/
theorem encloses_of_wholeLines (nonempty : (s.clampTo t.size).start < (s.clampTo t.size).stop)
    (whole : t.WholeLines r) (around : r.Encloses (s.clampTo t.size)) :
    r.Encloses (t.expandToLines s) := by
  have inside := s.stop_clampTo_le t.size
  rw [expandToLines_of_nonempty nonempty]
  exact ⟨le_lineStart (by omega) whole.start around.1,
    lineStop_le_of_endsLine (by omega) whole.stop (Nat.lt_of_lt_of_le (by omega) around.2)⟩

/-- Whole lines stay as they are. -/
theorem expandToLines_of_wholeLines (whole : t.WholeLines r) (nonempty : r.start < r.stop)
    (inside : r.stop ≤ t.size) : t.expandToLines r = r := by
  have same := Span.clampTo_of_stop_le (Nat.le_of_lt nonempty) inside
  have around := t.encloses_expandToLines r
  have least : r.Encloses (r.clampTo t.size) → r.Encloses (t.expandToLines r) :=
    encloses_of_wholeLines (by rwa [same]) whole
  rw [same] at around least
  exact around.antisymm (least ⟨Nat.le_refl _, Nat.le_refl _⟩)

/-- A larger span grows to no less. -/
theorem expandToLines_mono (nonempty : (s.clampTo t.size).start < (s.clampTo t.size).stop)
    (around : (r.clampTo t.size).Encloses (s.clampTo t.size)) :
    (t.expandToLines r).Encloses (t.expandToLines s) :=
  encloses_of_wholeLines nonempty (t.wholeLines_expandToLines r)
    ((t.encloses_expandToLines r).trans around)

/-- The end of the text starts a line if there is no text or its last line is ended. -/
theorem startsLine_size_iff :
    t.StartsLine t.size ↔ t.bytes = [] ∨ t.bytes.getLast? = some newline := by
  rw [List.getLast?_eq_getElem?, ← t.length_bytes]
  refine or_congr List.length_eq_zero_iff ⟨?_, fun last => ?_⟩
  · rintro ⟨p, next, broken⟩
    rw [← next]
    exact broken
  · have within := (List.getElem?_eq_some_iff.mp last).1
    exact ⟨t.bytes.length - 1, by omega, last⟩

theorem line_empty_iff {p : Nat} (inside : p ≤ t.size) :
    t.lineStart p = t.lineStop p ↔
      p = t.size ∧ (t.bytes = [] ∨ t.bytes.getLast? = some newline) := by
  have before := t.lineStart_le p
  have behind := t.le_lineStop p
  rw [← startsLine_size_iff]
  constructor
  · intro none
    have atEnd : p = t.size := by
      by_contra other
      have : p < t.lineStop p := lt_lineStop (by omega)
      omega
    have starts := startsLine_lineStart inside
    rw [show t.lineStart p = t.size by omega] at starts
    exact ⟨atEnd, starts⟩
  · rintro ⟨rfl, starts⟩
    have stop := lineStop_le inside
    have start := le_lineStart inside starts (Nat.le_refl _)
    omega

/-- A span with bytes in the text grows to the least run of whole lines around them, so a second
expansion adds nothing and a larger span grows to no less. A span without any grows to the line of
its offset with the newline of that line. The line is empty only at the end of a text that is empty
or ends with a newline. No row is looked up that is not there. -/
theorem expands_to_whole_lines (t : Text) (s : Span) :
    let clamped := s.clampTo t.size
    let lines := t.expandToLines s
    t.lookUpLines? s = some lines ∧ t.WholeLines lines ∧ lines.Encloses clamped ∧
      if clamped.start < clamped.stop then
        (∀ r, t.WholeLines r → r.Encloses clamped → r.Encloses lines) ∧
          t.expandToLines lines = lines ∧
          ∀ r, (r.clampTo t.size).Encloses clamped → (t.expandToLines r).Encloses lines
      else
        (∀ o, o ∈ lines ↔
          o < t.size ∧ (t.pointAt o).row = (t.pointAt clamped.start).row) ∧
          (lines.start = lines.stop ↔
            clamped.start = t.size ∧
              (t.bytes = [] ∨ t.bytes.getLast? = some newline)) := by
  intro clamped lines
  have whole : t.WholeLines lines := t.wholeLines_expandToLines s
  have around : lines.Encloses clamped := t.encloses_expandToLines s
  refine ⟨t.lookUpLines?_eq s, whole, around, ?_⟩
  split
  · rename_i nonempty
    have rest : lines.start < lines.stop :=
      Nat.lt_of_le_of_lt around.1 (Nat.lt_of_lt_of_le nonempty around.2)
    exact ⟨fun r => encloses_of_wholeLines nonempty,
      expandToLines_of_wholeLines whole rest (t.stop_expandToLines_le s),
      fun r => expandToLines_mono nonempty⟩
  · rename_i empty
    have inside : clamped.start ≤ t.size := t.start_clampTo_le s
    have line : lines = ⟨t.lineStart clamped.start, t.lineStop clamped.start⟩ :=
      expandToLines_of_empty empty
    rw [line]
    exact ⟨fun o => mem_line_iff inside, line_empty_iff inside⟩

/-- The line behind the newline that the span ends with is no part of it. -/
example : (ofChars ['a', '\n', 'b', '\n']).expandToLines ⟨1, 2⟩ = ⟨0, 2⟩ := by decide

end Text

end Highlighting
