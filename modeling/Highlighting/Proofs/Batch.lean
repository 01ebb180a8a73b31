import Highlighting.Proofs.Spans
import Highlighting.Tree.Upkeep
import Mathlib.Data.List.Induction

/-!
Batches of edits.

A batch carries offsets forward edit by edit, so the byte that an offset comes from is found by
going back through it. A byte that comes from nowhere was inserted by one of the edits, and is among
the bytes that the batch marks; with its whole line it is classified again.
-/

namespace Highlighting

/-- Where the byte at an offset was before the batch; `none` if it was inserted by it. -/
def preimageBefore? : List Edit → Nat → Option Nat
  | [], o => some o
  | e :: rest, o => (preimageBefore? rest o).bind e.splice.preimage?

variable {edits : List Edit} {e : Edit} {o : Nat}

/-- The last edit is the first to go back through. -/
theorem preimageBefore?_concat (edits : List Edit) (e : Edit) (o : Nat) :
    preimageBefore? (edits ++ [e]) o =
      (e.splice.preimage? o).bind (preimageBefore? edits) := by
  induction edits with
  | nil =>
      change (some o).bind e.splice.preimage? = (e.splice.preimage? o).bind some
      rw [Option.bind_some, Option.bind_fun_some]
  | cons first rest ih =>
      rw [List.cons_append, preimageBefore?, ih, Option.bind_assoc]
      rfl

/-! ### Marked bytes -/

theorem editedSpans_concat (edits : List Edit) (e : Edit) :
    editedSpans (edits ++ [e]) = ((editedSpans edits).splice e.splice).insert e.mark := by
  unfold editedSpans
  rw [List.foldl_append]
  rfl

theorem normal_editedSpans (edits : List Edit) : (editedSpans edits).Normal := by
  rcases List.eq_nil_or_concat edits with rfl | ⟨front, last, rfl⟩
  · exact SpanSet.normal_empty
  · rw [List.concat_eq_append, editedSpans_concat]
    exact (SpanSet.normal_splice _ _).insert _

/-- All inserted bytes are marked. -/
theorem mem_mark (inserted : o ∈ e.newSpan) : o ∈ e.mark := by
  unfold Edit.mark
  rw [if_neg fun empty => Span.isEmpty_iff.mp empty o inserted]
  exact inserted

/-- What a batch inserts it marks. -/
theorem mem_editedSpans (upright : ∀ e ∈ edits, e.span.start ≤ e.span.stop)
    (inserted : preimageBefore? edits o = none) : o ∈ editedSpans edits := by
  induction edits using List.reverseRecOn generalizing o with
  | nil => cases inserted
  | append_singleton front last ih =>
      rw [preimageBefore?_concat] at inserted
      rw [editedSpans_concat, SpanSet.mem_insert]
      cases moved : last.splice.preimage? o with
      | none => exact Or.inl (mem_mark (Splice.preimage?_eq_none_iff.mp moved))
      | some p =>
          rw [moved, Option.bind_some] at inserted
          right
          have own : last.span.start ≤ last.span.stop :=
            upright last (List.mem_append_right _ List.mem_cons_self)
          rw [SpanSet.mem_splice own (normal_editedSpans front).nonempty]
          left
          refine ⟨p, ih ?_ inserted, moved⟩
          intro e he
          exact upright e (List.mem_append_left _ he)

/-- What a batch marks depends on where it splices alone. -/
theorem editedSpans_congr {others : List Edit}
    (same : others.map Edit.splice = edits.map Edit.splice) :
    editedSpans others = editedSpans edits := by
  have marks : ∀ es : List Edit, editedSpans es = (es.map Edit.splice).foldl
      (fun d e => (d.splice e).insert
        (if e.fresh.isEmpty then ⟨e.fresh.start, e.fresh.start + 1⟩ else e.fresh)) .empty := by
    intro es
    rw [List.foldl_map]
    rfl
  rw [marks, marks, same]

/-! ### Sets along a batch -/

namespace SpanSet

/-- The set once it was carried through every edit of a batch. -/
def carry (d : SpanSet) (edits : List Edit) : SpanSet :=
  edits.foldl (fun d e => d.splice e.splice) d

theorem not_mem_carry_empty (edits : List Edit) : o ∉ empty.carry edits := by
  induction edits with
  | nil => exact not_mem_empty
  | cons e rest ih => exact ih

/-- A byte is in the carried set if the byte that it comes from was in the set. -/
theorem mem_carry_of_preimage {d : SpanSet} {p : Nat} (normal : d.Normal)
    (upright : ∀ e ∈ edits, e.span.start ≤ e.span.stop) (mem : p ∈ d)
    (moved : preimageBefore? edits o = some p) : o ∈ d.carry edits := by
  induction edits generalizing d p with
  | nil =>
      cases moved
      exact mem
  | cons e rest ih =>
      obtain ⟨own, others⟩ := List.forall_mem_cons.mp upright
      obtain ⟨q, further, last⟩ := Option.bind_eq_some_iff.mp moved
      refine ih (normal_splice d e.splice) others ?_ further
      exact (mem_splice own normal.nonempty).mpr (Or.inl ⟨p, mem, last⟩)

/-- A union is carried part by part. -/
theorem mem_carry_or {a b d : SpanSet} (normal : a.Normal) (normal' : b.Normal)
    (union : d.Normal) (upright : ∀ e ∈ edits, e.span.start ≤ e.span.stop)
    (mem : ∀ o, o ∈ d ↔ o ∈ a ∨ o ∈ b) :
    o ∈ d.carry edits ↔ o ∈ a.carry edits ∨ o ∈ b.carry edits := by
  induction edits generalizing a b d with
  | nil => exact mem o
  | cons e rest ih =>
      obtain ⟨own, others⟩ := List.forall_mem_cons.mp upright
      refine ih (normal_splice _ _) (normal_splice _ _) (normal_splice _ _) others fun o => ?_
      rw [mem_splice own union.nonempty, mem_splice own normal.nonempty,
        mem_splice own normal'.nonempty]
      simp only [mem, or_and_right, exists_or, and_or_left]
      exact or_or_or_comm

end SpanSet

/-! ### Lines -/

theorem headLength_pos {bytes : List UInt8} (nonempty : bytes ≠ []) : 0 < headLength bytes := by
  unfold headLength
  have := List.length_pos_iff.mpr nonempty
  omega

/-- A byte of the text lies in the lines of every span that it lies in. -/
theorem Text.mem_expandToLines {t : Text} {s : Span} (mem : o ∈ s) (inside : o < t.size) :
    o ∈ t.expandToLines s := by
  rw [Span.mem_iff] at mem
  unfold expandToLines Span.clampTo Span.ofEnds
  dsimp only
  rw [Span.mem_iff]
  constructor
  · unfold lineStart
    dsimp only
    omega
  · unfold lineStop
    dsimp only
    generalize last : max (max (min s.start t.size) (min s.stop t.size) - 1)
      (min s.start t.size) = offset
    have bounds : o ≤ offset ∧ offset < t.size := by omega
    have rest : t.bytes.drop offset ≠ [] := by
      intro none
      have := List.drop_eq_nil_iff.mp none
      rw [t.length_bytes] at this
      omega
    have := headLength_pos rest
    omega

/-! ### Lengths -/

namespace Text

theorem byteCount_of_countChars? {count n offset : Nat} {cs : List Char}
    (found : countChars? count cs offset = some n) :
    ∃ k, n = count + k ∧ byteCount (cs.take k) = offset := by
  induction cs generalizing count offset with
  | nil =>
      cases offset with
      | zero =>
          cases found
          exact ⟨0, rfl, rfl⟩
      | succ offset => cases found
  | cons c rest ih =>
      cases offset with
      | zero =>
          cases found
          exact ⟨0, rfl, rfl⟩
      | succ offset =>
          unfold countChars? at found
          split at found
          · rename_i fits
            obtain ⟨k, rfl, counted⟩ := ih found
            refine ⟨k + 1, by omega, ?_⟩
            rw [List.take_succ_cons]
            change c.utf8Size + byteCount (rest.take k) = offset + 1
            rw [counted]
            omega
          · cases found

/-- A text is cut at the offset, and nothing is lost. -/
theorem size_of_splitAt? {t front back : Text} {offset : Nat}
    (cut : t.splitAt? offset = some (front, back)) :
    front.size = offset ∧ front.size + back.size = t.size := by
  obtain ⟨n, found, halves⟩ := Option.map_eq_some_iff.mp cut
  obtain ⟨k, rfl, counted⟩ := byteCount_of_countChars? found
  obtain ⟨rfl, rfl⟩ := Prod.mk.inj halves
  rw [Nat.zero_add]
  constructor
  · exact counted
  · rw [t.size_eq]
    change byteCount (t.chars.take k) + byteCount (t.chars.drop k) = byteCount t.chars
    rw [← byteCount_append, List.take_append_drop]

/-- An edit that can be applied has upright bounds inside the text. -/
theorem size_of_apply {t u : Text} (applied : t.apply e = .ok u) :
    e.span.start ≤ e.span.stop ∧ e.span.stop ≤ t.size ∧
      u.size = t.size - e.span.length + e.text.size := by
  unfold apply Edit.check cutAt at applied
  split at applied
  · cases applied
  · split at applied
    · cases applied
    · cases first : t.splitAt? e.span.start with
      | none =>
          rw [first] at applied
          cases applied
      | some halves =>
          cases second : t.splitAt? e.span.stop with
          | none =>
              rw [first, second] at applied
              cases applied
          | some halves' =>
              rw [first, second] at applied
              cases applied
              have front := size_of_splitAt? first
              have back := size_of_splitAt? second
              refine ⟨by omega, by omega, ?_⟩
              rw [size_append, size_append, Span.length]
              omega

/-- A byte that an edit moves stays inside the text, and the end of the text stays its end. -/
theorem size_iff_of_apply {t u : Text} {p : Nat} (applied : t.apply e = .ok u)
    (moved : e.splice.preimage? o = some p) :
    (p < t.size ↔ o < u.size) ∧ (p = t.size ↔ o = u.size) := by
  obtain ⟨upright, fits, size⟩ := size_of_apply applied
  rw [Span.length] at size
  rcases Splice.preimage?_eq_some_iff.mp moved with ⟨before, rfl⟩ | ⟨behind, rfl⟩
  · simp only [Edit.splice] at before
    omega
  · simp only [Edit.splice] at behind ⊢
    omega

end Text

/-! ### Following a batch -/

namespace Snapshot

variable {s : Snapshot}

theorem follow?_append (edits later : List Edit) :
    s.follow? (edits ++ later) = (s.follow? edits).bind fun reached => reached.follow? later := by
  induction edits generalizing s with
  | nil => rfl
  | cons e rest ih =>
      rw [List.cons_append, follow?, follow?]
      by_cases next : e.revision = s.revision + 1
      · rw [if_pos next, if_pos next]
        cases s.apply e with
        | ok reached => exact ih
        | error fault => rfl
      · rw [if_neg next, if_neg next]
        rfl

theorem text_of_apply {s reached : Snapshot} (applied : s.apply e = .ok reached) :
    s.text.apply e = .ok reached.text ∧ reached.revision = e.revision := by
  unfold apply at applied
  cases text : s.text.apply e with
  | error fault =>
      rw [text] at applied
      cases applied
  | ok t =>
      rw [text] at applied
      cases applied
      exact ⟨rfl, rfl⟩

theorem follow?_cons_eq_some {target : Snapshot}
    (follows : s.follow? (e :: edits) = some target) :
    ∃ reached, e.revision = s.revision + 1 ∧ s.apply e = .ok reached ∧
      reached.follow? edits = some target := by
  rw [follow?] at follows
  split at follows
  · rename_i next
    cases applied : s.apply e with
    | error fault =>
        rw [applied] at follows
        cases follows
    | ok reached =>
        rw [applied] at follows
        exact ⟨reached, next, rfl, follows⟩
  · cases follows

/-- The edits that lead from one text to another have upright bounds. -/
theorem upright_of_follow? {target : Snapshot} (follows : s.follow? edits = some target) :
    ∀ e ∈ edits, e.span.start ≤ e.span.stop := by
  induction edits generalizing s with
  | nil => exact nofun
  | cons first rest ih =>
      obtain ⟨reached, -, applied, further⟩ := follow?_cons_eq_some follows
      have upright := (Text.size_of_apply (text_of_apply applied).1).1
      exact List.forall_mem_cons.mpr ⟨upright, ih further⟩

/-- What a byte of the new text comes from is a byte of the old one. -/
theorem lt_size_of_follow? {target : Snapshot} {p : Nat} (follows : s.follow? edits = some target)
    (inside : o < target.size) (moved : preimageBefore? edits o = some p) : p < s.size := by
  induction edits generalizing s p with
  | nil =>
      cases follows
      cases moved
      exact inside
  | cons first rest ih =>
      obtain ⟨reached, -, applied, further⟩ := follow?_cons_eq_some follows
      obtain ⟨q, before, last⟩ := Option.bind_eq_some_iff.mp moved
      have within : q < reached.size := ih further before
      exact (Text.size_iff_of_apply (text_of_apply applied).1 last).1.mpr within

end Snapshot

end Highlighting
