import Highlighting.Span.Set
import Mathlib.Data.Set.Defs

/-!
Span sets as sets of offsets.

`SpanSet.Normal` is the form that every stored set has: no span is empty, and two neighbours leave
at least one offset between them. Every operation keeps it. Beside that, each operation has one
lemma that says which offsets it leaves: insertion is union, erasure is difference, and a splice
moves every offset outside the replaced span and marks all of the new bytes as soon as one offset
at the replaced span or directly before it is in the set (`SpanSet.mem_splice`).
-/

namespace Highlighting

namespace Splice

/-- The offset that an offset after the splice comes from; `none` for a new byte. -/
def preimage? (e : Splice) (offset : Nat) : Option Nat :=
  if offset < e.old.start then some offset
  else if offset < e.old.start + e.size then none
  else some (offset - (e.old.start + e.size) + e.old.stop)

theorem mem_fresh {e : Splice} {o : Nat} :
    o ∈ e.fresh ↔ e.old.start ≤ o ∧ o < e.old.start + e.size := by
  simp only [fresh, Span.ofEnds, Span.mem_iff]
  omega

theorem preimage?_eq_none_iff {e : Splice} {o : Nat} : e.preimage? o = none ↔ o ∈ e.fresh := by
  rw [mem_fresh, preimage?]
  split
  · simp only [reduceCtorEq, false_iff]
    omega
  · split
    · simp only [true_iff]
      omega
    · simp only [reduceCtorEq, false_iff]
      omega

/-- A moved offset comes from outside the replaced span. -/
theorem preimage?_eq_some_iff {e : Splice} {o p : Nat} :
    e.preimage? o = some p ↔
      o < e.old.start ∧ p = o ∨
        e.old.start + e.size ≤ o ∧ p = o - (e.old.start + e.size) + e.old.stop := by
  simp only [preimage?]
  split
  · simp only [Option.some.injEq]
    omega
  · split
    · simp only [reduceCtorEq, false_iff]
      omega
    · simp only [Option.some.injEq]
      omega

theorem carry_before {e : Splice} {s : Span} (before : s.stop < e.old.start) : e.carry s = s := by
  rw [carry, if_pos before]

theorem carry_behind {e : Splice} {s : Span} (upright : e.old.start ≤ e.old.stop)
    (nonempty : s.start < s.stop) (behind : e.old.stop < s.start) :
    e.carry s = ⟨e.image s.start, e.image s.stop⟩ := by
  rw [carry, if_neg (by omega), if_pos behind, Span.ofEnds, Nat.max_eq_right]
  simp only [image]
  omega

theorem carry_touching {e : Splice} {s : Span} (reaches : e.old.start ≤ s.stop)
    (starts : s.start ≤ e.old.stop) :
    e.carry s = .ofEnds (min s.start e.old.start)
      (if e.old.stop < s.stop then e.image s.stop else e.old.start + e.size) := by
  rw [carry, if_neg (by omega), if_neg (by omega)]

/-- No offset lies between the span and the replaced one. -/
def Touches (e : Splice) (s : Span) : Prop :=
  e.old.start ≤ s.stop ∧ s.start ≤ e.old.stop

/-- The offsets of a carried span: those that come from the span, and all new bytes if the span
touches the replaced one. -/
theorem mem_carry {e : Splice} {s : Span} {o : Nat} (upright : e.old.start ≤ e.old.stop)
    (nonempty : s.start < s.stop) :
    o ∈ e.carry s ↔ (∃ p ∈ s, e.preimage? o = some p) ∨ (o ∈ e.fresh ∧ e.Touches s) := by
  -- With the offset that is carried made explicit, only inequalities are left in each case.
  have moved : (∃ p ∈ s, e.preimage? o = some p) ↔ o < e.old.start ∧ o ∈ s ∨
      e.old.start + e.size ≤ o ∧ o - (e.old.start + e.size) + e.old.stop ∈ s := by
    simp only [preimage?_eq_some_iff]
    constructor
    · rintro ⟨p, mem, ⟨before, rfl⟩ | ⟨behind, rfl⟩⟩
      · exact Or.inl ⟨before, mem⟩
      · exact Or.inr ⟨behind, mem⟩
    · rintro (⟨before, mem⟩ | ⟨behind, mem⟩)
      · exact ⟨o, mem, Or.inl ⟨before, rfl⟩⟩
      · exact ⟨_, mem, Or.inr ⟨behind, rfl⟩⟩
  rw [moved, Touches]
  rcases Nat.lt_or_ge s.stop e.old.start with before | reaches
  · rw [carry_before before]
    simp only [Span.mem_iff]
    omega
  · rcases Nat.lt_or_ge e.old.stop s.start with behind | starts
    · rw [carry_behind upright nonempty behind]
      simp only [Span.mem_iff, image]
      omega
    · rw [carry_touching reaches starts]
      simp only [Span.mem_iff, Span.ofEnds, image, fresh]
      split <;> omega

end Splice

namespace SpanSet

/-- The form of a stored set. -/
structure Normal (d : SpanSet) : Prop where
  nonempty : ∀ s ∈ d.spans, s.start < s.stop
  apart : d.spans.Pairwise fun s t => s.stop < t.start

/-- The offsets of the set, as a set of Mathlib. -/
def bytes (d : SpanSet) : Set Nat :=
  {o | o ∈ d}

theorem mem_bytes {d : SpanSet} {o : Nat} : o ∈ d.bytes ↔ o ∈ d :=
  Iff.rfl

/-! ### Offsets -/

@[simp]
theorem not_mem_empty {o : Nat} : o ∉ empty := by
  simp [empty, mem_iff]

/-- Spans that overlap or touch make up their hull. -/
theorem mem_hull_of_touching {s r : Span} {o : Nat} (reaches : s.start ≤ r.stop)
    (starts : r.start ≤ s.stop) : o ∈ s.hull r ↔ o ∈ s ∨ o ∈ r := by
  simp only [Span.hull, Span.mem_iff]
  omega

theorem mem_insertSpan {s : Span} {ss : List Span} {o : Nat} :
    (∃ t ∈ insertSpan s ss, o ∈ t) ↔ o ∈ s ∨ ∃ t ∈ ss, o ∈ t := by
  induction ss generalizing s with
  | nil => simp [insertSpan]
  | cons r rest ih =>
      unfold insertSpan
      split
      · simp only [List.mem_cons, exists_eq_or_imp, ih]
        exact or_left_comm
      · split
        · simp only [List.mem_cons, exists_eq_or_imp]
        · rw [ih, mem_hull_of_touching (by omega) (by omega)]
          simp only [List.mem_cons, exists_eq_or_imp, or_assoc]

@[simp]
theorem mem_insert {d : SpanSet} {s : Span} {o : Nat} : o ∈ d.insert s ↔ o ∈ s ∨ o ∈ d := by
  unfold insert
  split
  · rename_i empty
    have := Span.isEmpty_iff.mp empty o
    simp [this]
  · exact mem_insertSpan

@[simp]
theorem mem_insertAll {d : SpanSet} {ss : List Span} {o : Nat} :
    o ∈ d.insertAll ss ↔ (∃ s ∈ ss, o ∈ s) ∨ o ∈ d := by
  unfold insertAll
  induction ss generalizing d with
  | nil => simp
  | cons s rest ih =>
      rw [List.foldl_cons, ih, mem_insert]
      simp only [List.mem_cons, exists_eq_or_imp]
      rw [or_left_comm, or_assoc]

@[simp]
theorem mem_ofList {ss : List Span} {o : Nat} : o ∈ ofList ss ↔ ∃ s ∈ ss, o ∈ s := by
  simp [ofList]

theorem mem_cutOut {s r : Span} {o : Nat} :
    (∃ t ∈ cutOut s r, o ∈ t) ↔ o ∈ r ∧ o ∉ s := by
  have kept : (∃ t ∈ cutOut s r, o ∈ t) ↔
      ∃ t ∈ [(⟨r.start, min r.stop s.start⟩ : Span), ⟨max r.start s.stop, r.stop⟩], o ∈ t := by
    simp only [cutOut, List.mem_filter]
    constructor
    · rintro ⟨t, ⟨mem, -⟩, inside⟩
      exact ⟨t, mem, inside⟩
    · rintro ⟨t, mem, inside⟩
      refine ⟨t, ⟨mem, ?_⟩, inside⟩
      rw [Bool.not_eq_true', Bool.eq_false_iff]
      exact fun empty => Span.isEmpty_iff.mp empty o inside
  rw [kept]
  simp only [List.mem_cons, List.not_mem_nil, or_false, exists_eq_or_imp, exists_eq_left,
    Span.mem_iff]
  omega

@[simp]
theorem mem_erase {d : SpanSet} {s : Span} {o : Nat} : o ∈ d.erase s ↔ o ∈ d ∧ o ∉ s := by
  unfold erase
  split
  · rename_i empty
    have := Span.isEmpty_iff.mp empty o
    simp [this]
  · simp only [mem_iff, List.mem_flatMap]
    constructor
    · rintro ⟨t, ⟨r, hr, ht⟩, inside⟩
      obtain ⟨inR, notS⟩ := mem_cutOut.mp ⟨t, ht, inside⟩
      exact ⟨⟨r, hr, inR⟩, notS⟩
    · rintro ⟨⟨r, hr, inR⟩, notS⟩
      obtain ⟨t, ht, inside⟩ := mem_cutOut.mpr ⟨inR, notS⟩
      exact ⟨t, ⟨r, hr, ht⟩, inside⟩

@[simp]
theorem mem_eraseAll {d : SpanSet} {ss : List Span} {o : Nat} :
    o ∈ d.eraseAll ss ↔ o ∈ d ∧ ∀ s ∈ ss, o ∉ s := by
  unfold eraseAll
  induction ss generalizing d with
  | nil => simp
  | cons s rest ih =>
      rw [List.foldl_cons, ih, mem_erase]
      simp only [List.mem_cons, forall_eq_or_imp, and_assoc]

@[simp]
theorem mem_within {d : SpanSet} {s : Span} {o : Nat} : o ∈ d.within s ↔ o ∈ d ∧ o ∈ s := by
  simp only [within, mem_iff, List.mem_filterMap]
  constructor
  · rintro ⟨u, ⟨r, hr, common⟩, inside⟩
    obtain ⟨inR, inS⟩ := Span.mem_inter?.mp ⟨u, common, inside⟩
    exact ⟨⟨r, hr, inR⟩, inS⟩
  · rintro ⟨⟨r, hr, inR⟩, inS⟩
    obtain ⟨u, common, inside⟩ := Span.mem_inter?.mpr ⟨inR, inS⟩
    exact ⟨u, ⟨r, hr, common⟩, inside⟩

@[simp]
theorem mem_truncate {d : SpanSet} {limit o : Nat} : o ∈ d.truncate limit ↔ o ∈ d ∧ o < limit := by
  simp only [truncate, mem_iff, List.mem_filterMap]
  constructor
  · rintro ⟨u, ⟨r, hr, clipped⟩, inside⟩
    split at clipped
    · cases clipped
      simp only [Span.mem_iff] at inside
      exact ⟨⟨r, hr, by simp only [Span.mem_iff]; omega⟩, by omega⟩
    · cases clipped
  · rintro ⟨⟨r, hr, inR⟩, below⟩
    simp only [Span.mem_iff] at inR
    refine ⟨⟨r.start, min r.stop limit⟩, ⟨r, hr, if_pos (by omega)⟩, ?_⟩
    simp only [Span.mem_iff]
    omega

/-- The offsets after a splice: the moved ones, and all new bytes if a stored span touches the
replaced one. -/
theorem mem_splice_iff_touches {d : SpanSet} {e : Splice} {o : Nat}
    (upright : e.old.start ≤ e.old.stop) (nonempty : ∀ s ∈ d.spans, s.start < s.stop) :
    o ∈ d.splice e ↔
      (∃ p ∈ d, e.preimage? o = some p) ∨ (o ∈ e.fresh ∧ ∃ s ∈ d.spans, e.Touches s) := by
  have carried : ∀ s ∈ d.spans, (o ∈ e.carry s ↔
      (∃ p ∈ s, e.preimage? o = some p) ∨ (o ∈ e.fresh ∧ e.Touches s)) :=
    fun s hs => Splice.mem_carry upright (nonempty s hs)
  simp only [splice, mem_ofList, List.mem_map]
  constructor
  · rintro ⟨u, ⟨s, hs, rfl⟩, inside⟩
    rcases (carried s hs).mp inside with ⟨p, mem, moved⟩ | ⟨new, touches⟩
    · exact Or.inl ⟨p, ⟨s, hs, mem⟩, moved⟩
    · exact Or.inr ⟨new, s, hs, touches⟩
  · rintro (⟨p, ⟨s, hs, mem⟩, moved⟩ | ⟨new, s, hs, touches⟩)
    · exact ⟨_, ⟨s, hs, rfl⟩, (carried s hs).mpr (Or.inl ⟨p, mem, moved⟩)⟩
    · exact ⟨_, ⟨s, hs, rfl⟩, (carried s hs).mpr (Or.inr ⟨new, touches⟩)⟩

/-- A stored span touches the replaced one just if an offset at the replaced span or directly before
it is in the set. -/
theorem exists_touches_iff {d : SpanSet} {e : Splice} (upright : e.old.start ≤ e.old.stop)
    (nonempty : ∀ s ∈ d.spans, s.start < s.stop) :
    (∃ s ∈ d.spans, e.Touches s) ↔ ∃ b ∈ d, e.old.start ≤ b + 1 ∧ b ≤ e.old.stop := by
  constructor
  · rintro ⟨s, hs, reaches, starts⟩
    have := nonempty s hs
    refine ⟨min e.old.stop (s.stop - 1), ⟨s, hs, ?_⟩, ?_, ?_⟩
    · simp only [Span.mem_iff]
      omega
    · omega
    · omega
  · rintro ⟨b, ⟨s, hs, mem⟩, reaches, starts⟩
    simp only [Span.mem_iff] at mem
    exact ⟨s, hs, by omega, by omega⟩

/-- The offsets after a splice: the moved ones, and all new bytes if an offset at the replaced span
or directly before it is in the set. -/
theorem mem_splice {d : SpanSet} {e : Splice} {o : Nat} (upright : e.old.start ≤ e.old.stop)
    (nonempty : ∀ s ∈ d.spans, s.start < s.stop) :
    o ∈ d.splice e ↔ (∃ p ∈ d, e.preimage? o = some p) ∨
      (o ∈ e.fresh ∧ ∃ b ∈ d, e.old.start ≤ b + 1 ∧ b ≤ e.old.stop) := by
  rw [mem_splice_iff_touches upright nonempty, exists_touches_iff upright nonempty]

/-! ### The normal form -/

theorem normal_empty : empty.Normal :=
  ⟨by simp [empty], List.Pairwise.nil⟩

/-- What stands before a span that is inserted stays before it, and all else starts no earlier
than before or is the span. -/
theorem lt_start_insertSpan {s : Span} {ss : List Span} {limit : Nat} (own : limit < s.start)
    (rest : ∀ t ∈ ss, limit < t.start) : ∀ t ∈ insertSpan s ss, limit < t.start := by
  induction ss generalizing s with
  | nil => simpa [insertSpan] using own
  | cons r tail ih =>
      obtain ⟨first, others⟩ := List.forall_mem_cons.mp rest
      unfold insertSpan
      split
      · exact List.forall_mem_cons.mpr ⟨first, ih own others⟩
      · split
        · exact List.forall_mem_cons.mpr ⟨own, rest⟩
        · refine ih ?_ others
          simp only [Span.hull]
          omega

theorem normal_insertSpan {s : Span} {ss : List Span} (nonempty : s.start < s.stop)
    (normal : Normal ⟨ss⟩) : Normal ⟨insertSpan s ss⟩ := by
  induction ss generalizing s with
  | nil => exact ⟨by simpa [insertSpan] using nonempty, List.pairwise_singleton _ _⟩
  | cons r rest ih =>
      obtain ⟨first, others⟩ := List.forall_mem_cons.mp normal.nonempty
      obtain ⟨behind, apart⟩ := List.pairwise_cons.mp normal.apart
      unfold insertSpan
      split
      · rename_i before
        have tail := ih nonempty ⟨others, apart⟩
        exact ⟨List.forall_mem_cons.mpr ⟨first, tail.nonempty⟩,
          List.pairwise_cons.mpr ⟨lt_start_insertSpan before behind, tail.apart⟩⟩
      · split
        · rename_i before
          refine ⟨List.forall_mem_cons.mpr ⟨nonempty, normal.nonempty⟩,
            List.pairwise_cons.mpr ⟨List.forall_mem_cons.mpr ⟨before, fun t ht => ?_⟩, normal.apart⟩⟩
          have := behind t ht
          omega
        · refine ih ?_ ⟨others, apart⟩
          simp only [Span.hull]
          omega

theorem Normal.insert {d : SpanSet} (normal : d.Normal) (s : Span) : (d.insert s).Normal := by
  unfold SpanSet.insert
  split
  · exact normal
  · rename_i nonempty
    simp only [Span.isEmpty, decide_eq_true_eq, Nat.not_le] at nonempty
    exact normal_insertSpan nonempty normal

theorem Normal.insertAll {d : SpanSet} (normal : d.Normal) (ss : List Span) :
    (d.insertAll ss).Normal := by
  unfold SpanSet.insertAll
  induction ss generalizing d with
  | nil => exact normal
  | cons s rest ih => exact ih (normal.insert s)

theorem normal_ofList (ss : List Span) : (ofList ss).Normal :=
  normal_empty.insertAll ss

theorem normal_splice (d : SpanSet) (e : Splice) : (d.splice e).Normal :=
  normal_ofList _

/-- What is left of a span lies inside it and is not empty. -/
theorem bounds_of_mem_cutOut {s r t : Span} (mem : t ∈ cutOut s r) :
    r.start ≤ t.start ∧ t.start < t.stop ∧ t.stop ≤ r.stop := by
  simp only [cutOut, List.mem_filter, List.mem_cons, List.not_mem_nil, or_false, Span.isEmpty,
    Bool.not_eq_true', decide_eq_false_iff_not] at mem
  obtain ⟨rfl | rfl, nonempty⟩ := mem
  · simp only at nonempty ⊢
    omega
  · simp only at nonempty ⊢
    omega

theorem Normal.erase {d : SpanSet} (normal : d.Normal) (s : Span) : (d.erase s).Normal := by
  unfold SpanSet.erase
  split
  · exact normal
  · rename_i nonempty
    simp only [Span.isEmpty, decide_eq_true_eq, Nat.not_le] at nonempty
    refine ⟨fun t ht => ?_, List.pairwise_flatMap.mpr ⟨fun r _ => ?_, ?_⟩⟩
    · obtain ⟨r, -, mem⟩ := List.mem_flatMap.mp ht
      exact (bounds_of_mem_cutOut mem).2.1
    · refine List.Pairwise.filter _ (List.pairwise_pair.mpr ?_)
      simp only
      omega
    · refine normal.apart.imp fun {a b} before t ht u hu => ?_
      have left := bounds_of_mem_cutOut ht
      have right := bounds_of_mem_cutOut hu
      omega

theorem Normal.eraseAll {d : SpanSet} (normal : d.Normal) (ss : List Span) :
    (d.eraseAll ss).Normal := by
  unfold SpanSet.eraseAll
  induction ss generalizing d with
  | nil => exact normal
  | cons s rest ih => exact ih (normal.erase s)

theorem Normal.truncate {d : SpanSet} (normal : d.Normal) (limit : Nat) :
    (d.truncate limit).Normal := by
  unfold SpanSet.truncate
  refine ⟨fun t ht => ?_, List.pairwise_filterMap.mpr (normal.apart.imp ?_)⟩
  · obtain ⟨r, -, clipped⟩ := List.mem_filterMap.mp ht
    split at clipped
    · cases clipped
      assumption
    · cases clipped
  · intro a b before t ht u hu
    split at ht
    · split at hu
      · cases ht
        cases hu
        simp only
        omega
      · cases hu
    · cases ht

theorem Normal.within {d : SpanSet} (normal : d.Normal) (s : Span) : (d.within s).Normal := by
  unfold SpanSet.within
  refine ⟨fun t ht => ?_, List.pairwise_filterMap.mpr (normal.apart.imp ?_)⟩
  · obtain ⟨r, -, common⟩ := List.mem_filterMap.mp ht
    simp only [Span.inter?] at common
    split at common
    · cases common
      assumption
    · cases common
  · intro a b before t ht u hu
    simp only [Span.inter?] at ht hu
    split at ht
    · split at hu
      · cases ht
        cases hu
        simp only
        omega
      · cases hu
    · cases ht

/-- No offset lies in two of the spans. -/
theorem Normal.disjoint {d : SpanSet} (normal : d.Normal) :
    d.spans.Pairwise fun s t => ∀ o ∈ s, o ∉ t := by
  refine normal.apart.imp fun {s t} before o inS inT => ?_
  simp only [Span.mem_iff] at inS inT
  omega

end SpanSet

end Highlighting
