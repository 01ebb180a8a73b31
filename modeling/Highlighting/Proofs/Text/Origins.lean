import Highlighting.Proofs.Batch

/-!
Where the bytes of an edited text come from.

An edit puts new bytes in the place of a span of the old ones (`Text.bytes_of_apply`). Done to a list
of offsets in place of the bytes, the same substitutions tell of every byte of the last text which
byte of the first one it was (`Snapshot.origins`). The end of the text counts as one more byte, which
no edit replaces.

What the batch marks is told from the offsets alone: a byte without an origin is marked, and two
neighbours that are both unmarked were neighbours before. A deletion is the case that needs its
mark. It brings two bytes together that were apart, and it marks the second of them, which may be
the end of the text.
-/

namespace Highlighting

/-! ### Substitution in a list -/

namespace Span

variable {α : Type} {s : Span} {new old : List α}

/-- The list with `new` in the place of the elements of `s`. -/
def substitute (s : Span) (new old : List α) : List α :=
  old.take s.start ++ new ++ old.drop s.stop

theorem length_substitute (upright : s.start ≤ s.stop) (fits : s.stop ≤ old.length) :
    (s.substitute new old).length = old.length - s.length + new.length := by
  simp only [substitute, List.length_append, List.length_take, List.length_drop, Span.length]
  omega

/-- The elements in front of the span stay, and those behind it move. -/
theorem getElem?_substitute_of_moved {o p : Nat} (upright : s.start ≤ s.stop)
    (fits : s.stop ≤ old.length) (moved : (Splice.mk s new.length).preimage? o = some p) :
    (s.substitute new old)[o]? = old[p]? := by
  unfold substitute
  rcases Splice.preimage?_eq_some_iff.mp moved with ⟨before, rfl⟩ | ⟨behind, rfl⟩
  · simp only at before
    rw [List.append_assoc, List.getElem?_append_left (by rw [List.length_take]; omega),
      List.getElem?_take_of_lt before]
  · simp only at behind ⊢
    have front : (old.take s.start ++ new).length = s.start + new.length := by
      rw [List.length_append, List.length_take]
      omega
    rw [List.getElem?_append_right (by omega), front, List.getElem?_drop, Nat.add_comm]

/-- The new elements stand from the start of the span. -/
theorem getElem?_substitute_of_new {o : Nat} (fits : s.start ≤ old.length)
    (inserted : (Splice.mk s new.length).preimage? o = none) :
    (s.substitute new old)[o]? = new[o - s.start]? := by
  have within := Splice.preimage?_eq_none_iff.mp inserted
  simp only [Splice.mem_fresh] at within
  have front : (old.take s.start).length = s.start := by
    rw [List.length_take]
    omega
  unfold substitute
  rw [List.append_assoc, List.getElem?_append_right (by omega), front,
    List.getElem?_append_left (by omega)]

end Span

/-! ### The bytes of an edited text -/

namespace Text

variable {t u front back : Text} {e : Edit}

theorem bytes_of_splitAt? {offset : Nat} (cut : t.splitAt? offset = some (front, back)) :
    front.bytes = t.bytes.take offset ∧ back.bytes = t.bytes.drop offset := by
  have length : front.bytes.length = offset := by
    rw [length_bytes]
    exact (size_of_splitAt? cut).1
  have whole : t.bytes = front.bytes ++ back.bytes := by
    obtain ⟨n, -, halves⟩ := Option.map_eq_some_iff.mp cut
    obtain ⟨rfl, rfl⟩ := Prod.mk.inj halves
    simp only [bytes, ofChars]
    rw [← List.flatMap_append, List.take_append_drop]
  rw [whole, ← length, List.take_left, List.drop_left]
  exact ⟨rfl, rfl⟩

/-- The bytes of the inserted text stand in the place of the replaced ones. -/
theorem bytes_of_apply (applied : t.apply e = .ok u) :
    u.bytes = e.span.substitute e.text.bytes t.bytes := by
  unfold apply cutAt at applied
  cases inside : e.check t.size with
  | error fault =>
      rw [inside] at applied
      cases applied
  | ok _ =>
      cases first : t.splitAt? e.span.start with
      | none =>
          rw [inside, first] at applied
          cases applied
      | some halves =>
          cases second : t.splitAt? e.span.stop with
          | none =>
              rw [inside, first, second] at applied
              cases applied
          | some halves' =>
              rw [inside, first, second] at applied
              cases applied
              rw [bytes_append, bytes_append, (bytes_of_splitAt? first).1,
                (bytes_of_splitAt? second).2]
              rfl

theorem le_size_iff_of_apply {o p : Nat} (applied : t.apply e = .ok u)
    (moved : e.splice.preimage? o = some p) : p ≤ t.size ↔ o ≤ u.size := by
  have := size_iff_of_apply applied moved
  omega

end Text

/-! ### Neighbours -/

section Neighbours

variable {edits : List Edit} {e : Edit} {o : Nat}

/-- The mark of an edit starts with its text, and takes in one byte at least. -/
theorem Edit.mem_mark_iff :
    o ∈ e.mark ↔ e.span.start ≤ o ∧ o < e.span.start + max e.text.size 1 := by
  have new : o ∈ e.newSpan ↔ e.span.start ≤ o ∧ o < e.span.start + e.text.size :=
    Splice.mem_fresh
  have empty : e.newSpan.isEmpty = true ↔ e.text.size = 0 := by
    rw [Span.isEmpty, decide_eq_true_eq]
    simp only [newSpan, Splice.fresh, Span.ofEnds, splice]
    omega
  simp only [mark, empty]
  split
  · rename_i nothing
    rw [nothing]
    exact Iff.rfl
  · rw [new]
    omega

/-- One edit parts two neighbours only at its seam, which it marks. -/
theorem Edit.preimage?_succ (unmarked : o ∉ e.mark) (next : o + 1 ∉ e.mark) :
    ∃ p, e.splice.preimage? o = some p ∧ e.splice.preimage? (o + 1) = some (p + 1) := by
  rw [mem_mark_iff] at unmarked next
  rcases Nat.lt_or_ge (o + 1) e.span.start with before | behind
  · refine ⟨o, Splice.preimage?_eq_some_iff.mpr (Or.inl ⟨?_, rfl⟩),
      Splice.preimage?_eq_some_iff.mpr (Or.inl ⟨before, rfl⟩)⟩
    exact Nat.lt_of_succ_lt before
  · refine ⟨_, Splice.preimage?_eq_some_iff.mpr (Or.inr ⟨?_, rfl⟩),
      Splice.preimage?_eq_some_iff.mpr (Or.inr ⟨?_, ?_⟩)⟩
    all_goals
      simp only [splice]
      omega

/-- Unmarked neighbours were neighbours before the batch. -/
theorem preimageBefore?_succ (upright : ∀ e ∈ edits, e.span.start ≤ e.span.stop)
    (unmarked : o ∉ editedSpans edits) (next : o + 1 ∉ editedSpans edits) :
    ∃ p, preimageBefore? edits o = some p ∧ preimageBefore? edits (o + 1) = some (p + 1) := by
  induction edits using List.reverseRecOn generalizing o with
  | nil => exact ⟨o, rfl, rfl⟩
  | append_singleton front last ih =>
      have own : last.span.start ≤ last.span.stop :=
        upright last (List.mem_append_right _ List.mem_cons_self)
      -- A later edit carries every mark along, so unmarked bytes come from unmarked ones.
      have moves : ∀ {q p : Nat}, q ∉ editedSpans (front ++ [last]) →
          last.splice.preimage? q = some p → p ∉ editedSpans front := by
        intro q p outside moved marked
        rw [editedSpans_concat, SpanSet.mem_insert,
          SpanSet.mem_splice own (normal_editedSpans front).nonempty] at outside
        exact outside (Or.inr (Or.inl ⟨p, marked, moved⟩))
      have clear : ∀ {q : Nat}, q ∉ editedSpans (front ++ [last]) → q ∉ last.mark := by
        intro q outside marked
        rw [editedSpans_concat, SpanSet.mem_insert] at outside
        exact outside (Or.inl marked)
      obtain ⟨q, here, there⟩ := Edit.preimage?_succ (clear unmarked) (clear next)
      obtain ⟨p, before, after⟩ := ih (fun e he => upright e (List.mem_append_left _ he))
        (moves unmarked here) (moves next there)
      refine ⟨p, ?_, ?_⟩
      · rw [preimageBefore?_concat, here, Option.bind_some, before]
      · rw [preimageBefore?_concat, there, Option.bind_some, after]

end Neighbours

/-! ### Origins along a batch -/

namespace Snapshot

variable {s reached target : Snapshot} {edits : List Edit} {e : Edit} {o p : Nat}

/-- For each byte after the edits, and for the end of the text, the byte of the snapshot that it
was; `none` for a byte that the edits have inserted. -/
def origins (s : Snapshot) (edits : List Edit) : List (Option Nat) :=
  edits.foldl (fun origins e => e.span.substitute (List.replicate e.text.size none) origins)
    ((List.range (s.size + 1)).map some)

theorem origins_concat (s : Snapshot) (edits : List Edit) (e : Edit) :
    s.origins (edits ++ [e]) =
      e.span.substitute (List.replicate e.text.size none) (s.origins edits) := by
  unfold origins
  rw [List.foldl_append]
  rfl

theorem replay_append (s : Snapshot) (edits later : List Edit) :
    s.replay (edits ++ later) = (do (← s.replay edits).replay later) := by
  induction edits generalizing s with
  | nil => rfl
  | cons e rest ih =>
      rw [List.cons_append, replay, replay]
      cases s.apply e with
      | error fault => rfl
      | ok next => exact ih next

theorem replay_concat_eq_ok (replayed : s.replay (edits ++ [e]) = .ok target) :
    ∃ reached, s.replay edits = .ok reached ∧ reached.text.apply e = .ok target.text := by
  rw [replay_append] at replayed
  cases front : s.replay edits with
  | error fault =>
      rw [front] at replayed
      cases replayed
  | ok reached =>
      rw [front] at replayed
      cases last : reached.apply e with
      | error fault =>
          simp only [replay, bind, Except.bind, last] at replayed
          cases replayed
      | ok next =>
          simp only [replay, bind, Except.bind, last] at replayed
          cases replayed
          exact ⟨reached, rfl, (text_of_apply last).1⟩

/-- Edits that can be applied in order have upright bounds. -/
theorem upright_of_replay (replayed : s.replay edits = .ok target) :
    ∀ e ∈ edits, e.span.start ≤ e.span.stop := by
  induction edits using List.reverseRecOn generalizing target with
  | nil => exact nofun
  | append_singleton front last ih =>
      obtain ⟨reached, earlier, applied⟩ := replay_concat_eq_ok replayed
      refine List.forall_mem_append.mpr ⟨ih earlier, List.forall_mem_singleton.mpr ?_⟩
      exact (Text.size_of_apply applied).1

theorem length_origins (replayed : s.replay edits = .ok target) :
    (s.origins edits).length = target.size + 1 := by
  induction edits using List.reverseRecOn generalizing target with
  | nil =>
      cases replayed
      simp [origins]
  | append_singleton front last ih =>
      obtain ⟨reached, earlier, applied⟩ := replay_concat_eq_ok replayed
      obtain ⟨upright, fits, size⟩ := Text.size_of_apply applied
      have length : (s.origins front).length = reached.text.size + 1 := ih earlier
      rw [origins_concat, Span.length_substitute upright (by omega), List.length_replicate, length]
      simp only [Snapshot.size, Span.length] at size ⊢
      omega

/-- An offset after the edits goes back through them to its origin. -/
theorem getElem?_origins (replayed : s.replay edits = .ok target) (inside : o ≤ target.size) :
    (s.origins edits)[o]? = some (preimageBefore? edits o) := by
  induction edits using List.reverseRecOn generalizing target o with
  | nil =>
      cases replayed
      have bound : o < s.size + 1 := Nat.lt_succ_of_le inside
      simp [origins, preimageBefore?, bound]
  | append_singleton front last ih =>
      -- The last edit is undone first, so the induction is on the batch from its end.
      obtain ⟨reached, earlier, applied⟩ := replay_concat_eq_ok replayed
      obtain ⟨upright, fits, size⟩ := Text.size_of_apply applied
      have length : (s.origins front).length = reached.text.size + 1 := length_origins earlier
      have splice : Splice.mk last.span (List.replicate last.text.size (none : Option Nat)).length =
          last.splice := by
        rw [List.length_replicate]
        rfl
      rw [origins_concat, preimageBefore?_concat]
      cases moved : last.splice.preimage? o with
      | none =>
          have new := Splice.preimage?_eq_none_iff.mp moved
          simp only [Splice.mem_fresh, Edit.splice] at new
          rw [Span.getElem?_substitute_of_new (by omega) (by rw [splice]; exact moved),
            List.getElem?_replicate_of_lt (by omega)]
          rfl
      | some p =>
          rw [Span.getElem?_substitute_of_moved upright (by omega) (by rw [splice]; exact moved)]
          exact ih earlier ((Text.le_size_iff_of_apply applied moved).mpr inside)

/-- A byte that was not inserted is the byte that it comes from. -/
theorem getElem?_bytes_of_replay (replayed : s.replay edits = .ok target)
    (moved : preimageBefore? edits o = some p) : target.text.bytes[o]? = s.text.bytes[p]? := by
  induction edits using List.reverseRecOn generalizing target o with
  | nil =>
      cases replayed
      cases moved
      rfl
  | append_singleton front last ih =>
      obtain ⟨reached, earlier, applied⟩ := replay_concat_eq_ok replayed
      obtain ⟨upright, fits, -⟩ := Text.size_of_apply applied
      rw [preimageBefore?_concat] at moved
      obtain ⟨q, step, before⟩ := Option.bind_eq_some_iff.mp moved
      rw [Text.bytes_of_apply applied, Span.getElem?_substitute_of_moved upright
        (by rw [Text.length_bytes]; exact fits) (by rw [Text.length_bytes]; exact step)]
      exact ih earlier before

/-- What a batch marks lies in the last text or is its end. -/
theorem le_size_of_mem_editedSpans (replayed : s.replay edits = .ok target)
    (marked : o ∈ editedSpans edits) : o ≤ target.size := by
  induction edits using List.reverseRecOn generalizing target o with
  | nil => exact absurd marked SpanSet.not_mem_empty
  | append_singleton front last ih =>
      obtain ⟨reached, earlier, applied⟩ := replay_concat_eq_ok replayed
      obtain ⟨upright, fits, size⟩ := Text.size_of_apply applied
      rw [editedSpans_concat, SpanSet.mem_insert,
        SpanSet.mem_splice upright (normal_editedSpans front).nonempty] at marked
      -- A mark is that of the last edit, was carried along by it, or has grown over its new text.
      rcases marked with own | ⟨p, mem, moved⟩ | ⟨new, -⟩
      · rw [Edit.mem_mark_iff] at own
        simp only [Snapshot.size, Span.length] at size ⊢
        omega
      · exact (Text.le_size_iff_of_apply applied moved).mp (ih earlier mem)
      · simp only [Splice.mem_fresh, Edit.splice] at new
        simp only [Snapshot.size, Span.length] at size ⊢
        omega

/-- The origin of a byte, or of the end of the text, is a byte of the first text or its end. -/
theorem le_size_of_preimageBefore? (replayed : s.replay edits = .ok target)
    (inside : o ≤ target.size) (moved : preimageBefore? edits o = some p) : p ≤ s.size := by
  induction edits using List.reverseRecOn generalizing target o with
  | nil =>
      cases replayed
      cases moved
      exact inside
  | append_singleton front last ih =>
      obtain ⟨reached, earlier, applied⟩ := replay_concat_eq_ok replayed
      rw [preimageBefore?_concat] at moved
      obtain ⟨q, step, before⟩ := Option.bind_eq_some_iff.mp moved
      exact ih earlier ((Text.le_size_iff_of_apply applied step).mpr inside) before

/-- The spans of a batch miss no change. The end of the text counts as one more byte: of the last
text every byte that the edits have inserted is marked, every byte with an origin is the byte that
it comes from, and two neighbours that are both unmarked come from neighbours of the first text. No
span goes further than the byte behind the text. -/
theorem marks_every_change (replayed : s.replay edits = .ok target) :
    (s.origins edits).length = target.size + 1 ∧
      (∀ o p : Nat, (s.origins edits)[o]? = some (some p) →
        p ≤ s.size ∧ target.text.bytes[o]? = s.text.bytes[p]?) ∧
      (∀ o : Nat, (s.origins edits)[o]? = some none → o ∈ editedSpans edits) ∧
      (∀ o, o < target.size → o ∉ editedSpans edits → o + 1 ∉ editedSpans edits →
        ∃ p, (s.origins edits)[o]? = some (some p) ∧
          (s.origins edits)[o + 1]? = some (some (p + 1))) ∧
      ∀ r ∈ (editedSpans edits).spans, r.stop ≤ target.size + 1 := by
  have upright := upright_of_replay replayed
  have length := length_origins replayed
  have traced : ∀ {o : Nat} {origin : Option Nat}, (s.origins edits)[o]? = some origin →
      o ≤ target.size ∧ preimageBefore? edits o = origin := by
    intro o origin found
    have inside : o ≤ target.size := by
      have := (List.getElem?_eq_some_iff.mp found).1
      omega
    rw [getElem?_origins replayed inside] at found
    exact ⟨inside, Option.some.inj found⟩
  refine ⟨length, ?moved, ?inserted, ?neighbours, ?bound⟩
  case moved =>
    intro o p found
    obtain ⟨inside, moved⟩ := traced found
    exact ⟨le_size_of_preimageBefore? replayed inside moved,
      getElem?_bytes_of_replay replayed moved⟩
  case inserted =>
    intro o found
    exact mem_editedSpans upright (traced found).2
  case neighbours =>
    intro o inside unmarked next
    obtain ⟨p, here, there⟩ := preimageBefore?_succ upright unmarked next
    refine ⟨p, ?_, ?_⟩
    · rw [getElem?_origins replayed (Nat.le_of_lt inside), here]
    · rw [getElem?_origins replayed inside, there]
  case bound =>
    intro r stored
    have nonempty := (normal_editedSpans edits).nonempty r stored
    have last : r.stop - 1 ∈ editedSpans edits :=
      ⟨r, stored, Span.mem_iff.mpr (by omega)⟩
    have := le_size_of_mem_editedSpans replayed last
    omega

/-- Two deletions at one seam, which is left at the end of the text, and an insertion before them.
The bytes of `ab` are unmarked neighbours, and were before; between `b` and the end of the text stood
the deleted bytes, and the end is marked. -/
theorem marks_a_seam_at_the_end :
    let s : Snapshot := ⟨0, .ofChars ['a', 'b', 'c', 'd', 'e']⟩
    let edits : List Edit := [.delete ⟨2, 4⟩, .delete ⟨2, 3⟩, .insert 0 (.ofChars ['é'])]
    s.replay edits = .ok ⟨0, .ofChars ['é', 'a', 'b']⟩ ∧
      s.origins edits = [none, none, some 0, some 1, some 5] ∧
      editedSpans edits = ⟨[⟨0, 2⟩, ⟨4, 5⟩]⟩ ∧
      0 ∈ editedSpans edits ∧
      (∃ p, (s.origins edits)[2]? = some (some p) ∧
        (s.origins edits)[3]? = some (some (p + 1))) ∧
      ∀ r ∈ (editedSpans edits).spans, r.stop ≤ 5 := by
  intro s edits
  have replayed : s.replay edits = .ok ⟨0, .ofChars ['é', 'a', 'b']⟩ := by decide
  have origins : s.origins edits = [none, none, some 0, some 1, some 5] := by decide
  have marked : editedSpans edits = ⟨[⟨0, 2⟩, ⟨4, 5⟩]⟩ := by decide
  obtain ⟨-, -, inserted, neighbours, bound⟩ := marks_every_change replayed
  refine ⟨replayed, origins, marked, inserted 0 ?_, neighbours 2 ?_ ?_ ?_, bound⟩
  · rw [origins]
    rfl
  · decide
  · simp [marked, SpanSet.mem_iff, Span.mem_iff]
  · simp [marked, SpanSet.mem_iff, Span.mem_iff]

end Snapshot

end Highlighting
