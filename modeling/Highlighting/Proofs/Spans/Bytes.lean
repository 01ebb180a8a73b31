import Highlighting.Proofs.Index.Canonical
import Highlighting.Proofs.Spans.Counting

/-!
Span sets as finite sets of bytes.

Every call that changes a span set has a meaning on sets of bytes: insertion adds, erasure takes
away, restriction intersects, and a splice moves the bytes outside the replaced span. Along every run
of calls the stored spans keep their normal form and hold just the bytes of that meaning
(`SpanSet.Denotes`), whatever spans the calls are given; an inverted span holds no byte.

A normal form is given by its bytes. Right behind a stored span lies a byte outside the set, so a
span of bytes in the set lies inside one stored span (`SpanSet.Normal.covers_iff`), and two normal
forms of the same bytes are the same list (`SpanSet.Normal.eq_of_mem_iff`).
-/

namespace Highlighting

/-- The calls that change a span set. -/
inductive SpanSetCall where
  | insert (s : Span)
  | insertAll (ss : List Span)
  /-- Starts again from some spans. -/
  | ofList (ss : List Span)
  | erase (s : Span)
  | within (s : Span)
  | truncate (limit : Nat)
  | splice (e : Splice)
  | clear

/-- The bytes of a set once it was carried through a splice: the moved ones, and all new bytes if a
byte at the replaced span or directly before it is in the set. -/
def Splice.carryBytes (e : Splice) (bytes : Set Nat) : Set Nat :=
  {o | (∃ p ∈ bytes, e.preimage? o = some p) ∨
    (o ∈ e.fresh ∧ ∃ b ∈ bytes, e.old.start ≤ b + 1 ∧ b ≤ e.old.stop)}

/-- What callers promise: the replaced span of a splice is not inverted. -/
def SpanSetCall.Upright : SpanSetCall → Prop
  | .splice e => e.old.start ≤ e.old.stop
  | _ => True

namespace SpanSet

/-- The set after a call. -/
def call (d : SpanSet) : SpanSetCall → SpanSet
  | .insert s => d.insert s
  | .insertAll ss => d.insertAll ss
  | .ofList ss => ofList ss
  | .erase s => d.erase s
  | .within s => d.within s
  | .truncate limit => d.truncate limit
  | .splice e => d.splice e
  | .clear => empty

/-- What a call does to a set of bytes. -/
def bytesAfter (bytes : Set Nat) : SpanSetCall → Set Nat
  | .insert s => bytes ∪ Set.Ico s.start s.stop
  | .insertAll ss => bytes ∪ {o | ∃ s ∈ ss, o ∈ Set.Ico s.start s.stop}
  | .ofList ss => {o | ∃ s ∈ ss, o ∈ Set.Ico s.start s.stop}
  | .erase s => bytes \ Set.Ico s.start s.stop
  | .within s => bytes ∩ Set.Ico s.start s.stop
  | .truncate limit => bytes ∩ Set.Iio limit
  | .splice e => e.carryBytes bytes
  | .clear => ∅

/-- The runs of calls on a span set, each with the bytes that the calls lead to. -/
inductive ByteRun : SpanSet → Set Nat → Prop where
  | start : ByteRun empty ∅
  | call {d : SpanSet} {bytes : Set Nat} (c : SpanSetCall) :
      ByteRun d bytes → c.Upright → ByteRun (d.call c) (bytesAfter bytes c)

/-- The set is the normal form of some bytes. -/
structure Denotes (d : SpanSet) (bytes : Set Nat) : Prop where
  normal : d.Normal
  mem_iff : ∀ o, o ∈ d ↔ o ∈ bytes

variable {d e : SpanSet} {bytes : Set Nat}

/-! ### A normal form is given by its bytes -/

/-- Right behind a stored span lies a byte outside the set. -/
theorem Normal.stop_not_mem (normal : d.Normal) {r : Span} (hr : r ∈ d.spans) : r.stop ∉ d := by
  rintro ⟨t, ht, inside⟩
  have symmetric : Std.Symm fun s t : Span => s.stop < t.start ∨ t.stop < s.start :=
    ⟨fun _ _ apart => apart.symm⟩
  have apart : d.spans.Pairwise fun s t => s.stop < t.start ∨ t.stop < s.start :=
    normal.apart.imp Or.inl
  by_cases same : r = t
  · subst same
    exact Nat.lt_irrefl _ inside.2
  · have nonempty := normal.nonempty r hr
    have := apart.forall hr ht same
    simp only [Span.mem_iff] at inside
    omega

/-- Bytes of the set in a row lie inside one stored span. -/
theorem Normal.exists_span_around (normal : d.Normal) {s : Span} (nonempty : s.start < s.stop)
    (all : ∀ o ∈ s, o ∈ d) : ∃ r ∈ d.spans, r.start ≤ s.start ∧ s.stop ≤ r.stop := by
  obtain ⟨r, hr, first⟩ := all s.start ⟨Nat.le_refl _, nonempty⟩
  refine ⟨r, hr, first.1, Nat.le_of_not_lt fun longer => ?_⟩
  exact normal.stop_not_mem hr (all r.stop ⟨Nat.le_of_lt first.2, longer⟩)

/-- A span is covered if all of its bytes are in the set. -/
theorem Normal.covers_iff (normal : d.Normal) {s : Span} :
    d.covers s = true ↔ ∀ o ∈ s, o ∈ d := by
  simp only [covers, Bool.or_eq_true, List.any_eq_true, Bool.and_eq_true, decide_eq_true_eq]
  constructor
  · rintro (none | ⟨r, hr, starts, stops⟩) o inside
    · exact absurd inside (Span.isEmpty_iff.mp none o)
    · exact ⟨r, hr, Nat.le_trans starts inside.1, Nat.lt_of_lt_of_le inside.2 stops⟩
  · intro all
    by_cases empty : s.isEmpty = true
    · exact Or.inl empty
    · simp only [Span.isEmpty, decide_eq_true_eq, Nat.not_le] at empty
      exact Or.inr (normal.exists_span_around empty all)

/-- Stored spans are stored runs of one category. -/
theorem Normal.canonical (normal : d.Normal) :
    StyleRun.Canonical (d.spans.map StyleRun.unclassified) where
  ascending := {
    nonempty := List.forall_mem_map.mpr normal.nonempty
    ordered := List.pairwise_map.mpr (normal.apart.imp Nat.le_of_lt) }
  apart := by
    have chain : (d.spans.map StyleRun.unclassified).Pairwise fun a b => a.joins b = false :=
      List.pairwise_map.mpr (normal.apart.imp fun before =>
        StyleRun.joins_eq_false_iff.mpr fun _ => Nat.ne_of_lt before)
    exact chain.isChain

theorem holds_unclassified {o : Nat} {c : Category} :
    StyleRun.Holds (d.spans.map StyleRun.unclassified) o c ↔ o ∈ d ∧ c = .unclassified := by
  constructor
  · rintro ⟨r, hr, inside, rfl⟩
    obtain ⟨s, hs, rfl⟩ := List.mem_map.mp hr
    exact ⟨⟨s, hs, inside⟩, rfl⟩
  · rintro ⟨⟨s, hs, inside⟩, rfl⟩
    exact ⟨_, List.mem_map_of_mem hs, inside, rfl⟩

/-- Sets of the same bytes are the same list. -/
theorem Normal.eq_of_mem_iff (normal : d.Normal) (normal' : e.Normal)
    (same : ∀ o, o ∈ d ↔ o ∈ e) : d = e := by
  have runs : d.spans.map StyleRun.unclassified = e.spans.map StyleRun.unclassified := by
    refine normal.canonical.eq_of_holds normal'.canonical fun o c => ?_
    rw [holds_unclassified, holds_unclassified, same o]
  have injective : Function.Injective StyleRun.unclassified :=
    fun _ _ eq => congrArg StyleRun.span eq
  cases d
  cases e
  exact congrArg SpanSet.mk (List.map_injective_iff.mpr injective runs)

/-- The total is the number of bytes. -/
theorem Denotes.total_eq_ncard (denotes : Denotes d bytes) : d.total = bytes.ncard := by
  have cover : bytes = ↑(Span.cover d.spans) := by
    ext o
    rw [Finset.mem_coe, Span.mem_cover, ← denotes.mem_iff o]
    rfl
  rw [denotes.normal.total_eq_card, cover, Set.ncard_coe_finset]

/-! ### Along every run -/

theorem denotes_empty : Denotes empty ∅ :=
  ⟨normal_empty, fun _ => iff_of_false not_mem_empty (Set.notMem_empty _)⟩

/-- Every call does to the bytes of the set what it means. -/
theorem Denotes.call (denotes : Denotes d bytes) (c : SpanSetCall) (upright : c.Upright) :
    Denotes (d.call c) (bytesAfter bytes c) := by
  obtain ⟨normal, mem⟩ := denotes
  cases c with
  | insert s =>
      refine ⟨normal.insert s, fun o => ?_⟩
      rw [SpanSet.call, mem_insert, mem o]
      exact or_comm
  | insertAll ss =>
      refine ⟨normal.insertAll ss, fun o => ?_⟩
      rw [SpanSet.call, mem_insertAll, mem o]
      exact or_comm
  | ofList ss => exact ⟨normal_ofList ss, fun o => mem_ofList⟩
  | erase s =>
      refine ⟨normal.erase s, fun o => ?_⟩
      rw [SpanSet.call, mem_erase, mem o]
      rfl
  | within s =>
      refine ⟨normal.within s, fun o => ?_⟩
      rw [SpanSet.call, mem_within, mem o]
      rfl
  | truncate limit =>
      refine ⟨normal.truncate limit, fun o => ?_⟩
      rw [SpanSet.call, mem_truncate, mem o]
      rfl
  | splice e =>
      refine ⟨normal_splice d e, fun o => ?_⟩
      rw [SpanSet.call, mem_splice upright normal.nonempty]
      simp only [mem]
      rfl
  | clear => exact denotes_empty

theorem denotes_of_run (run : ByteRun d bytes) : Denotes d bytes := by
  induction run with
  | start => exact denotes_empty
  | call c _ upright ih => exact ih.call c upright

/-- A span set is a finite set of bytes in normal form: after every run its spans are not empty,
ascend and leave a byte between them, it holds the bytes that the calls lead to and counts them, a
span is covered just if all of its bytes are among them, and another set is equal to it just if it
holds the same bytes. -/
theorem finite_bytes_in_normal_form (run : ByteRun d bytes) :
    (∀ s ∈ d.spans, s.start < s.stop) ∧ (d.spans.Pairwise fun s t => s.stop < t.start) ∧
      d.bytes = bytes ∧ bytes.Finite ∧ d.total = bytes.ncard ∧
      (∀ s : Span, d.covers s = true ↔ Set.Ico s.start s.stop ⊆ bytes) ∧
      ∀ {e : SpanSet} {others : Set Nat}, ByteRun e others → (d = e ↔ bytes = others) := by
  have denotes := denotes_of_run run
  have holds : d.bytes = bytes := Set.ext denotes.mem_iff
  have finite : bytes.Finite := by
    refine (Span.cover d.spans).finite_toSet.subset fun o ho => ?_
    exact Span.mem_cover.mpr ((denotes.mem_iff o).mpr ho)
  refine ⟨denotes.normal.nonempty, denotes.normal.apart, holds, finite, denotes.total_eq_ncard,
    fun s => ?_, fun {e others} run' => ?_⟩
  · rw [denotes.normal.covers_iff]
    exact forall₂_congr fun o _ => denotes.mem_iff o
  · have denotes' := denotes_of_run run'
    constructor
    · rintro rfl
      rw [← holds]
      exact Set.ext denotes'.mem_iff
    · rintro rfl
      refine denotes.normal.eq_of_mem_iff denotes'.normal fun o => ?_
      rw [denotes.mem_iff o, denotes'.mem_iff o]

/-- The second insertion touches the first one, the erased span is inverted, and the splice moves
one span up to the other. Inserting the bytes at once leads to the same set. -/
theorem bytes_after_touching_spans :
    ∃ (d e : SpanSet) (bytes others : Set Nat), ByteRun d bytes ∧ ByteRun e others ∧
      d.spans = [⟨10, 30⟩] ∧ d.bytes = bytes ∧ bytes.ncard = 20 ∧
      Set.Ico 12 30 ⊆ bytes ∧ d = e ∧ bytes = others := by
  have inserted := (ByteRun.start.call (.insertAll [⟨10, 20⟩, ⟨20, 25⟩]) trivial).call
    (.insert ⟨30, 40⟩) trivial
  have erased := (inserted.call (.erase ⟨22, 12⟩) trivial).call (.erase ⟨35, 50⟩) trivial
  have run : ByteRun ⟨[⟨10, 30⟩]⟩ _ :=
    erased.call (.splice ⟨⟨25, 30⟩, 0⟩) (show 25 ≤ 30 by decide)
  have direct : ByteRun ⟨[⟨10, 30⟩]⟩ _ := ByteRun.start.call (.ofList [⟨10, 30⟩]) trivial
  obtain ⟨-, -, holds, -, total, covers, same⟩ := finite_bytes_in_normal_form run
  exact ⟨_, _, _, _, run, direct, rfl, holds, total.symm, (covers ⟨12, 30⟩).mp rfl, rfl,
    (same direct).mp rfl⟩

end SpanSet

end Highlighting
