import Highlighting.Proofs.Spans
import Highlighting.Style.Index

/-!
What a list of runs says of each offset.

`StyleRun.categoryAt` reads a list of runs as a map from offsets to categories. Coalescing does not
change it. For the index follows what its operations do to a reader: a replacement changes the
bytes of its span and no others, and after an edit a byte reads what it read before, unless it is in
the region that the index reports as lost.
-/

namespace Highlighting

namespace StyleRun

/-- The category of the first run that holds the offset. -/
def categoryAt : List StyleRun → Nat → Category
  | [], _ => .unclassified
  | r :: rest, o => if o ∈ r.span then r.category else categoryAt rest o

variable {o : Nat}

theorem categoryAt_of_not_mem {runs : List StyleRun} (outside : ∀ r ∈ runs, o ∉ r.span) :
    categoryAt runs o = .unclassified := by
  induction runs with
  | nil => rfl
  | cons r rest ih =>
      obtain ⟨first, others⟩ := List.forall_mem_cons.mp outside
      rw [categoryAt, if_neg first, ih others]

theorem categoryAt_append_left {left right : List StyleRun} (outside : ∀ r ∈ right, o ∉ r.span) :
    categoryAt (left ++ right) o = categoryAt left o := by
  induction left with
  | nil => exact categoryAt_of_not_mem outside
  | cons r rest ih => rw [List.cons_append, categoryAt, categoryAt, ih]

theorem categoryAt_append_right {left right : List StyleRun} (outside : ∀ r ∈ left, o ∉ r.span) :
    categoryAt (left ++ right) o = categoryAt right o := by
  induction left with
  | nil => rfl
  | cons r rest ih =>
      obtain ⟨first, others⟩ := List.forall_mem_cons.mp outside
      rw [List.cons_append, categoryAt, if_neg first, ih others]

/-- Runs may be moved, clipped and left out as long as the ones that hold `p` are those that hold
`o` afterwards. -/
theorem categoryAt_filterMap {runs : List StyleRun} {f : StyleRun → Option StyleRun} {p : Nat}
    (kept : ∀ r ∈ runs, ∀ q, f r = some q → q.category = r.category ∧ (o ∈ q.span ↔ p ∈ r.span))
    (dropped : ∀ r ∈ runs, f r = none → p ∉ r.span) :
    categoryAt (runs.filterMap f) o = categoryAt runs p := by
  induction runs with
  | nil => rfl
  | cons r rest ih =>
      obtain ⟨keep, keeps⟩ := List.forall_mem_cons.mp kept
      obtain ⟨drop, drops⟩ := List.forall_mem_cons.mp dropped
      rw [categoryAt]
      cases image : f r with
      | none => rw [List.filterMap_cons_none image, if_neg (drop image), ih keeps drops]
      | some q =>
          obtain ⟨category, span⟩ := keep q image
          rw [List.filterMap_cons_some image, categoryAt, category, ih keeps drops]
          simp only [span]

theorem categoryAt_filter {runs : List StyleRun} {keep : StyleRun → Bool}
    (kept : ∀ r ∈ runs, o ∈ r.span → keep r = true) :
    categoryAt (runs.filter keep) o = categoryAt runs o := by
  rw [← List.filterMap_eq_filter]
  refine categoryAt_filterMap (fun r _ q same => ?_) fun r hr left inside => ?_
  · obtain ⟨rfl, -⟩ := Option.guard_eq_some_iff.mp same
    exact ⟨rfl, Iff.rfl⟩
  · rw [Option.guard_eq_none_iff] at left
    simp [kept r hr inside] at left

theorem categoryAt_map {runs : List StyleRun} {f : StyleRun → StyleRun} {p : Nat}
    (kept : ∀ r ∈ runs, (f r).category = r.category ∧ (o ∈ (f r).span ↔ p ∈ r.span)) :
    categoryAt (runs.map f) o = categoryAt runs p := by
  rw [← List.filterMap_eq_map]
  refine categoryAt_filterMap (fun r hr q same => ?_) fun r _ left => ?_
  · cases same
    exact kept r hr
  · cases left

/-! ### Coalescing -/

theorem nonempty_of_mem_cons {r q : StyleRun} {out : List StyleRun}
    (nonempty : ∀ t ∈ out, t.span.start < t.span.stop) (mem : q ∈ cons r out) :
    q.span.start < q.span.stop := by
  unfold cons at mem
  split at mem
  · exact nonempty q mem
  · rename_i own
    simp only [Span.isEmpty, decide_eq_true_eq, Nat.not_le] at own
    split at mem
    · rw [List.mem_singleton.mp mem]
      exact own
    · rename_i next rest
      obtain ⟨first, others⟩ := List.forall_mem_cons.mp nonempty
      split at mem
      · rename_i touch
        simp only [joins, Bool.and_eq_true, decide_eq_true_eq] at touch
        rcases List.mem_cons.mp mem with rfl | mem
        · simp only [join]
          omega
        · exact others q mem
      · rcases List.mem_cons.mp mem with rfl | mem
        · exact own
        · exact nonempty q mem

theorem nonempty_of_mem_coalesce {runs : List StyleRun} :
    ∀ r ∈ coalesce runs, r.span.start < r.span.stop := by
  unfold coalesce
  induction runs with
  | nil => exact nofun
  | cons r rest ih => exact fun q mem => nonempty_of_mem_cons ih mem

/-- Two runs that join have their bytes together. -/
theorem mem_span_join {r next : StyleRun} (own : r.span.start < r.span.stop)
    (behind : next.span.start < next.span.stop) (touch : r.span.stop = next.span.start) :
    o ∈ (r.join next).span ↔ o ∈ r.span ∨ o ∈ next.span := by
  simp only [join, Span.mem_iff]
  omega

theorem categoryAt_cons {r : StyleRun} {out : List StyleRun}
    (nonempty : ∀ t ∈ out, t.span.start < t.span.stop) :
    categoryAt (cons r out) o = if o ∈ r.span then r.category else categoryAt out o := by
  unfold cons
  split
  · rename_i empty
    rw [if_neg (Span.isEmpty_iff.mp empty o)]
  · rename_i own
    simp only [Span.isEmpty, decide_eq_true_eq, Nat.not_le] at own
    split
    · rfl
    · rename_i next rest
      obtain ⟨first, -⟩ := List.forall_mem_cons.mp nonempty
      split
      · rename_i touch
        simp only [joins, Bool.and_eq_true, decide_eq_true_eq] at touch
        have joined : o ∈ (r.join next).span ↔ o ∈ r.span ∨ o ∈ next.span :=
          mem_span_join own first touch.2
        rw [categoryAt, categoryAt]
        by_cases inside : o ∈ r.span
        · rw [if_pos (joined.mpr (Or.inl inside)), if_pos inside]
          rfl
        · rw [if_neg inside]
          by_cases behind : o ∈ next.span
          · rw [if_pos (joined.mpr (Or.inr behind)), if_pos behind]
            exact touch.1
          · rw [if_neg fun mem => (joined.mp mem).elim inside behind, if_neg behind]
      · rw [categoryAt]

/-- Coalescing changes no category. -/
theorem categoryAt_coalesce (runs : List StyleRun) :
    categoryAt (coalesce runs) o = categoryAt runs o := by
  induction runs with
  | nil => rfl
  | cons r rest ih =>
      rw [categoryAt, ← ih]
      exact categoryAt_cons nonempty_of_mem_coalesce

theorem stop_le_of_mem_coalesce {runs : List StyleRun} {limit : Nat}
    (bounded : ∀ r ∈ runs, r.span.stop ≤ limit) : ∀ r ∈ coalesce runs, r.span.stop ≤ limit := by
  induction runs with
  | nil => exact nofun
  | cons r rest ih =>
      obtain ⟨first, others⟩ := List.forall_mem_cons.mp bounded
      have tail := ih others
      change ∀ q ∈ cons r (coalesce rest), q.span.stop ≤ limit
      unfold cons
      split
      · exact tail
      · split
        · exact List.forall_mem_cons.mpr ⟨first, nofun⟩
        · rename_i next more eq
          rw [eq] at tail
          split
          · exact List.forall_mem_cons.mpr (List.forall_mem_cons.mp tail)
          · exact List.forall_mem_cons.mpr ⟨first, tail⟩

end StyleRun

namespace StyleIndex

open StyleRun

variable {x : StyleIndex} {o : Nat}

theorem styleAt_eq_categoryAt (x : StyleIndex) (o : Nat) : x.styleAt o = categoryAt x.runs o := by
  unfold styleAt
  induction x.runs with
  | nil => rfl
  | cons r rest ih =>
      rw [categoryAt]
      by_cases inside : o ∈ r.span
      · rw [if_pos inside, List.find?_cons_of_pos (by simpa [Span.contains] using inside)]
      · rw [if_neg inside, List.find?_cons_of_neg (by simpa [Span.contains] using inside), ih]

/-! ### Tilings -/

theorem checkTiling_cons {cursor stop : Nat} {r : StyleRun} {rest : List StyleRun} :
    checkTiling cursor stop (r :: rest) = .ok () ↔
      r.span.start = cursor ∧ cursor < r.span.stop ∧
        checkTiling r.span.stop stop rest = .ok () := by
  rw [checkTiling]
  by_cases empty : r.span.stop ≤ r.span.start
  · rw [if_pos (by simpa [Span.isEmpty] using empty)]
    simp only [reduceCtorEq, false_iff]
    omega
  · rw [if_neg (by simpa [Span.isEmpty] using empty)]
    by_cases gap : cursor < r.span.start
    · rw [if_pos gap]
      simp only [reduceCtorEq, false_iff]
      omega
    · rw [if_neg gap]
      by_cases overlap : r.span.start < cursor
      · rw [if_pos overlap]
        simp only [reduceCtorEq, false_iff]
        omega
      · rw [if_neg overlap]
        constructor
        · exact fun ok => ⟨by omega, by omega, ok⟩
        · exact fun ok => ok.2.2

theorem checkTiling_nil {cursor stop : Nat} :
    checkTiling cursor stop [] = .ok () ↔ cursor = stop := by
  unfold checkTiling
  split <;> simp_all

/-- The runs of a tiling lie inside it. -/
theorem bounds_of_checkTiling {cursor stop : Nat} {runs : List StyleRun}
    (tiles : checkTiling cursor stop runs = .ok ()) :
    cursor ≤ stop ∧ ∀ r ∈ runs, cursor ≤ r.span.start ∧ r.span.stop ≤ stop := by
  induction runs generalizing cursor with
  | nil => exact ⟨Nat.le_of_eq (checkTiling_nil.mp tiles), nofun⟩
  | cons r rest ih =>
      obtain ⟨start, nonempty, tiles⟩ := checkTiling_cons.mp tiles
      obtain ⟨ends, inside⟩ := ih tiles
      refine ⟨by omega, List.forall_mem_cons.mpr ⟨⟨by omega, ends⟩, fun q hq => ?_⟩⟩
      have := inside q hq
      omega

/-- A run in front of a tiling makes up a longer one, or adds nothing if it is empty. -/
theorem checkTiling_consRun {cursor stop : Nat} {r : StyleRun} {out : List StyleRun}
    (start : r.span.start = cursor) (upright : cursor ≤ r.span.stop)
    (tail : checkTiling r.span.stop stop out = .ok ()) :
    checkTiling cursor stop (cons r out) = .ok () := by
  unfold cons
  split
  · rename_i empty
    simp only [Span.isEmpty, decide_eq_true_eq] at empty
    have same : r.span.stop = cursor := by omega
    rw [← same]
    exact tail
  · rename_i own
    simp only [Span.isEmpty, decide_eq_true_eq, Nat.not_le] at own
    have nonempty : cursor < r.span.stop := start ▸ own
    split
    · exact checkTiling_cons.mpr ⟨start, nonempty, tail⟩
    · split
      · obtain ⟨touch, ahead, further⟩ := checkTiling_cons.mp tail
        exact checkTiling_cons.mpr ⟨start, Nat.lt_trans nonempty ahead, further⟩
      · exact checkTiling_cons.mpr ⟨start, nonempty, tail⟩

theorem checkTiling_coalesce {cursor stop : Nat} {runs : List StyleRun}
    (tiles : checkTiling cursor stop runs = .ok ()) :
    checkTiling cursor stop (coalesce runs) = .ok () := by
  induction runs generalizing cursor with
  | nil => exact tiles
  | cons r rest ih =>
      obtain ⟨start, nonempty, tiles⟩ := checkTiling_cons.mp tiles
      exact checkTiling_consRun start (Nat.le_of_lt nonempty) (ih tiles)

/-! ### Replacement -/

theorem mem_below {limit : Nat} {runs : List StyleRun} {q : StyleRun} :
    q ∈ below limit runs ↔ ∃ r ∈ runs, r.span.start < limit ∧
      q = ⟨⟨r.span.start, min r.span.stop limit⟩, r.category⟩ := by
  simp only [below, List.mem_filterMap]
  refine exists_congr fun r => and_congr_right fun _ => ?_
  split
  · rename_i starts
    simp [starts, eq_comm]
  · rename_i starts
    simp [starts]

theorem mem_above {limit : Nat} {runs : List StyleRun} {q : StyleRun} :
    q ∈ above limit runs ↔ ∃ r ∈ runs, limit < r.span.stop ∧
      q = ⟨⟨max r.span.start limit, r.span.stop⟩, r.category⟩ := by
  simp only [above, List.mem_filterMap]
  refine exists_congr fun r => and_congr_right fun _ => ?_
  split
  · rename_i stops
    simp [stops, eq_comm]
  · rename_i stops
    simp [stops]

theorem categoryAt_below {limit : Nat} {runs : List StyleRun} (before : o < limit) :
    categoryAt (below limit runs) o = categoryAt runs o := by
  refine categoryAt_filterMap (fun r _ q clipped => ?_) fun r _ left inside => ?_
  · split at clipped
    · cases clipped
      refine ⟨rfl, ?_⟩
      simp only [Span.mem_iff]
      omega
    · cases clipped
  · simp only [Span.mem_iff] at inside
    rw [ite_eq_right_iff] at left
    exact absurd (left (by omega)) nofun

theorem categoryAt_above {limit : Nat} {runs : List StyleRun} (behind : limit ≤ o) :
    categoryAt (above limit runs) o = categoryAt runs o := by
  refine categoryAt_filterMap (fun r _ q clipped => ?_) fun r _ left inside => ?_
  · split at clipped
    · cases clipped
      refine ⟨rfl, ?_⟩
      simp only [Span.mem_iff]
      omega
    · cases clipped
  · simp only [Span.mem_iff] at inside
    rw [ite_eq_right_iff] at left
    exact absurd (left (by omega)) nofun

theorem replace_of_tiling {s : Span} {pieces : List StyleRun}
    (tiles : checkTiling s.start s.stop pieces = .ok ()) :
    x.replace s pieces = .ok (if s.isEmpty then x
      else ⟨coalesce (below s.start x.runs ++ pieces ++ above s.stop x.runs)⟩) := by
  unfold replace
  rw [tiles]
  simp only
  split <;> rfl

/-- A replacement gives the bytes of its span their new categories and changes no other byte. -/
theorem styleAt_of_replace {y : StyleIndex} {s : Span} {pieces : List StyleRun}
    (tiles : checkTiling s.start s.stop pieces = .ok ()) (ok : x.replace s pieces = .ok y) :
    y.styleAt o = if o ∈ s then categoryAt pieces o else x.styleAt o := by
  rw [replace_of_tiling tiles, Except.ok.injEq] at ok
  subst ok
  split
  · rename_i empty
    rw [if_neg (Span.isEmpty_iff.mp empty o)]
  · simp only [styleAt_eq_categoryAt, categoryAt_coalesce]
    obtain ⟨-, inside⟩ := bounds_of_checkTiling tiles
    have notBelow : s.start ≤ o → ∀ q ∈ below s.start x.runs, o ∉ q.span := by
      intro behind q hq mem
      obtain ⟨r, -, -, rfl⟩ := mem_below.mp hq
      simp only [Span.mem_iff] at mem
      omega
    have notAbove : o < s.stop → ∀ q ∈ above s.stop x.runs, o ∉ q.span := by
      intro before q hq mem
      obtain ⟨r, -, -, rfl⟩ := mem_above.mp hq
      simp only [Span.mem_iff] at mem
      omega
    have notPiece : o ∉ s → ∀ q ∈ pieces, o ∉ q.span := by
      intro outside q hq mem
      have := inside q hq
      simp only [Span.mem_iff] at mem outside
      omega
    by_cases mem : o ∈ s
    · rw [if_pos mem, categoryAt_append_left (notAbove mem.2),
        categoryAt_append_right (notBelow mem.1)]
    · rw [if_neg mem]
      rcases Nat.lt_or_ge o s.start with before | behind
      · have tiled := (bounds_of_checkTiling tiles).1
        rw [categoryAt_append_left (notAbove (by omega)), categoryAt_append_left (notPiece mem),
          categoryAt_below before]
      · have past : s.stop ≤ o := Nat.le_of_not_lt fun before => mem ⟨behind, before⟩
        rw [List.append_assoc, categoryAt_append_right (notBelow behind),
          categoryAt_append_right (notPiece mem), categoryAt_above past]

/-- Every run is nonempty and inside a text of `size` bytes. -/
def Inside (x : StyleIndex) (size : Nat) : Prop :=
  ∀ r ∈ x.runs, r.span.start < r.span.stop ∧ r.span.stop ≤ size

theorem inside_empty (size : Nat) : empty.Inside size :=
  nofun

theorem inside_coalesce {runs : List StyleRun} {size : Nat}
    (bounded : ∀ r ∈ runs, r.span.stop ≤ size) : Inside ⟨coalesce runs⟩ size :=
  fun r hr => ⟨nonempty_of_mem_coalesce r hr, stop_le_of_mem_coalesce bounded r hr⟩

theorem inside_of_replace {y : StyleIndex} {s : Span} {pieces : List StyleRun} {size : Nat}
    (inside : x.Inside size) (fits : s.stop ≤ size) (ok : x.replace s pieces = .ok y) :
    y.Inside size := by
  have tiles : checkTiling s.start s.stop pieces = .ok () := by
    unfold replace at ok
    split at ok
    · cases ok
    · assumption
  rw [replace_of_tiling tiles, Except.ok.injEq] at ok
  subst ok
  split
  · exact inside
  · apply inside_coalesce
    intro q hq
    rcases List.mem_append.mp hq with hq | hq
    · rcases List.mem_append.mp hq with hq | hq
      · obtain ⟨r, hr, -, rfl⟩ := mem_below.mp hq
        exact Nat.le_trans (Nat.min_le_left _ _) (inside r hr).2
      · exact Nat.le_trans ((bounds_of_checkTiling tiles).2 q hq).2 fits
    · obtain ⟨r, hr, -, rfl⟩ := mem_above.mp hq
      exact (inside r hr).2

/-- The index once runs were stored for a span: as they are if they tile it, and otherwise as one
unclassified run. -/
def store (x : StyleIndex) (s : Span) (runs : List StyleRun) : StyleIndex :=
  match x.replace s runs with
  | .ok y => y
  | .error _ =>
    match x.replace s [.unclassified s] with
    | .ok y => y
    | .error _ => x

theorem Inside.store {s : Span} {size : Nat} (inside : x.Inside size) (fits : s.stop ≤ size)
    (runs : List StyleRun) : (x.store s runs).Inside size := by
  unfold StyleIndex.store
  split
  · rename_i y ok
    exact inside_of_replace inside fits ok
  · split
    · rename_i y ok
      exact inside_of_replace inside fits ok
    · exact inside

theorem styleAt_store {s : Span} {pieces : List StyleRun}
    (tiles : checkTiling s.start s.stop pieces = .ok ()) :
    (x.store s pieces).styleAt o = if o ∈ s then categoryAt pieces o else x.styleAt o := by
  have ok := replace_of_tiling (x := x) tiles
  rw [store, ok]
  exact styleAt_of_replace tiles ok

/-! ### Edits -/

theorem Inside.apply {e : Splice} {size : Nat} (inside : x.Inside size)
    (upright : e.old.start ≤ e.old.stop) (fits : e.old.stop ≤ size) :
    (x.apply e).Inside (size - e.old.length + e.size) := by
  apply inside_coalesce
  intro q hq
  simp only [Span.length]
  rcases List.mem_append.mp hq with hq | hq
  · obtain ⟨-, kept⟩ := List.mem_filter.mp hq
    simp only [isKept, decide_eq_true_eq] at kept
    omega
  · obtain ⟨r, hr, rfl⟩ := List.mem_map.mp hq
    have := (inside r (List.mem_filter.mp hr).1).2
    simp only [moved, Splice.image]
    omega

/-- A run is dropped if it reaches into the replaced span from either side, or over a point of
insertion. -/
theorem isDropped_iff {e : Splice} {r : StyleRun} (upright : e.old.start ≤ e.old.stop) :
    isDropped e r = true ↔ e.old.start < r.span.stop ∧ r.span.start < e.old.stop := by
  simp only [isDropped, isMoved, isKept, Span.isEmpty, Bool.and_eq_true, Bool.not_eq_true',
    Bool.and_eq_false_iff, Bool.not_eq_false', decide_eq_true_eq, decide_eq_false_iff_not]
  split <;> omega

/-- What the edit replaces and the runs that it drops, in offsets before the edit. -/
def reach (x : StyleIndex) (e : Splice) : Span :=
  (x.runs.filter (isDropped e)).foldl (fun s r => s.hull r.span) e.old

/-- The same in offsets after the edit. -/
def region (x : StyleIndex) (e : Splice) : Span :=
  .ofEnds (x.reach e).start (e.image (x.reach e).stop)

theorem le_start_foldl_hull {dropped : List StyleRun} {old : Span} {bound : Nat} :
    bound ≤ (dropped.foldl (fun s r => s.hull r.span) old).start ↔
      bound ≤ old.start ∧ ∀ r ∈ dropped, bound ≤ r.span.start := by
  induction dropped generalizing old with
  | nil => simp
  | cons r rest ih =>
      rw [List.foldl_cons, ih, Span.hull, Nat.le_min, List.forall_mem_cons, and_assoc]

theorem stop_foldl_hull_le {dropped : List StyleRun} {old : Span} {bound : Nat} :
    (dropped.foldl (fun s r => s.hull r.span) old).stop ≤ bound ↔
      old.stop ≤ bound ∧ ∀ r ∈ dropped, r.span.stop ≤ bound := by
  induction dropped generalizing old with
  | nil => simp
  | cons r rest ih =>
      rw [List.foldl_cons, ih, Span.hull, Nat.max_le, List.forall_mem_cons, and_assoc]

theorem le_start_reach {e : Splice} {bound : Nat} :
    bound ≤ (x.reach e).start ↔
      bound ≤ e.old.start ∧ ∀ r ∈ x.runs, isDropped e r = true → bound ≤ r.span.start := by
  simp only [reach, le_start_foldl_hull, List.mem_filter, and_imp]

theorem stop_reach_le {e : Splice} {bound : Nat} :
    (x.reach e).stop ≤ bound ↔
      e.old.stop ≤ bound ∧ ∀ r ∈ x.runs, isDropped e r = true → r.span.stop ≤ bound := by
  simp only [reach, stop_foldl_hull_le, List.mem_filter, and_imp]

/-- The replaced span is part of its reach. -/
theorem old_le_reach (x : StyleIndex) (e : Splice) :
    (x.reach e).start ≤ e.old.start ∧ e.old.stop ≤ (x.reach e).stop :=
  ⟨(le_start_reach.mp (Nat.le_refl _)).1, (stop_reach_le.mp (Nat.le_refl _)).1⟩

theorem lost_eq (x : StyleIndex) (e : Splice) :
    x.lost e = if x.region e = e.fresh then none else some (x.region e) := by
  unfold lost
  split
  · rename_i none
    have same : x.region e = e.fresh := by
      simp only [region, reach, none, List.foldl_nil, Splice.image_stop, Splice.fresh]
    rw [if_pos same]
  · rfl

/-- Beside the new bytes, the region holds the moved bytes of the runs that were dropped. -/
theorem mem_region {e : Splice} (upright : e.old.start ≤ e.old.stop) :
    o ∈ x.region e ↔ o ∈ e.fresh ∨
      ∃ p, e.preimage? o = some p ∧ ∃ r ∈ x.runs, isDropped e r = true ∧ p ∈ r.span := by
  obtain ⟨starts, stops⟩ := x.old_le_reach e
  have inside : o ∈ x.region e ↔
      (x.reach e).start ≤ o ∧ o < (x.reach e).stop - e.old.stop + e.old.start + e.size := by
    simp only [region, Span.ofEnds, Span.mem_iff, Splice.image]
    omega
  rw [inside]
  cases moved : e.preimage? o with
  | none =>
      have new := Splice.preimage?_eq_none_iff.mp moved
      simp only [new, true_or, iff_true]
      rw [Splice.mem_fresh] at new
      omega
  | some p =>
      have old : o ∉ e.fresh := by
        rw [← Splice.preimage?_eq_none_iff, moved]
        exact Option.some_ne_none p
      simp only [old, false_or, Option.some.injEq, exists_eq_left']
      constructor
      · intro within
        by_cases found : ∃ r ∈ x.runs, isDropped e r = true ∧ p ∈ r.span
        · exact found
        exfalso
        -- The byte is in no dropped run, so the reach ends before it.
        have apart : ∀ r ∈ x.runs, isDropped e r = true → p < r.span.start ∨ r.span.stop ≤ p := by
          intro r hr dropped
          have outside : p ∉ r.span := fun mem => found ⟨r, hr, dropped, mem⟩
          simp only [Span.mem_iff] at outside
          omega
        rcases Splice.preimage?_eq_some_iff.mp moved with ⟨before, rfl⟩ | ⟨behind, rfl⟩
        · have past : p + 1 ≤ (x.reach e).start := by
            refine le_start_reach.mpr ⟨before, fun r hr dropped => ?_⟩
            have := apart r hr dropped
            have := (isDropped_iff upright).mp dropped
            omega
          omega
        · have short : (x.reach e).stop ≤ o - (e.old.start + e.size) + e.old.stop := by
            refine stop_reach_le.mpr ⟨Nat.le_add_left _ _, fun r hr dropped => ?_⟩
            have := apart r hr dropped
            have := (isDropped_iff upright).mp dropped
            omega
          omega
      · rintro ⟨r, hr, dropped, mem⟩
        have first := (le_start_reach.mp (Nat.le_refl (x.reach e).start)).2 r hr dropped
        have last := (stop_reach_le.mp (Nat.le_refl (x.reach e).stop)).2 r hr dropped
        simp only [Span.mem_iff] at mem
        rcases Splice.preimage?_eq_some_iff.mp moved with ⟨before, rfl⟩ | ⟨behind, rfl⟩ <;> omega

/-- A moved byte whose run was dropped is in the region that is reported as lost. -/
theorem mem_lost {e : Splice} {p : Nat} {r : StyleRun} (upright : e.old.start ≤ e.old.stop)
    (moved : e.preimage? o = some p) (stored : r ∈ x.runs) (inside : p ∈ r.span)
    (dropped : isDropped e r = true) : ∃ region, x.lost e = some region ∧ o ∈ region := by
  have within : o ∈ x.region e :=
    (mem_region upright).mpr (Or.inr ⟨p, moved, r, stored, dropped, inside⟩)
  refine ⟨x.region e, ?_, within⟩
  rw [lost_eq, if_neg]
  intro same
  rw [same, ← Splice.preimage?_eq_none_iff, moved] at within
  cases within

/-- A byte that an edit moves reads as it did before, unless its run is dropped. -/
theorem styleAt_apply_of_survives {e : Splice} {p : Nat} (upright : e.old.start ≤ e.old.stop)
    (moved : e.preimage? o = some p)
    (survives : ∀ r ∈ x.runs, p ∈ r.span → isDropped e r = false) :
    (x.apply e).styleAt o = x.styleAt p := by
  have kept : ∀ r ∈ x.runs, p ∈ r.span → isKept e r = true ∨ isMoved e r = true := by
    intro r hr inside
    have stays := survives r hr inside
    simp only [isDropped, Bool.and_eq_false_iff, Bool.not_eq_false'] at stays
    exact stays
  rw [styleAt_eq_categoryAt, styleAt_eq_categoryAt, apply, categoryAt_coalesce]
  -- A byte in front of the edit is looked up among the runs that are kept, one behind it among
  -- those that are moved. The other half of the list is on the other side of the new bytes.
  rcases Splice.preimage?_eq_some_iff.mp moved with ⟨before, rfl⟩ | ⟨behind, rfl⟩
  · rw [categoryAt_append_left, categoryAt_filter]
    · intro r hr inside
      apply (kept r hr inside).resolve_right
      intro shifts
      simp only [isMoved, Bool.and_eq_true, decide_eq_true_eq] at shifts
      simp only [Span.mem_iff] at inside
      split at shifts <;> omega
    · intro q hq inside
      obtain ⟨r, hr, rfl⟩ := List.mem_map.mp hq
      simp only [StyleIndex.moved, Span.mem_iff, Splice.image] at inside
      omega
  · rw [categoryAt_append_right, categoryAt_map, categoryAt_filter]
    · intro r hr inside
      apply (kept r hr inside).resolve_left
      intro stays
      simp only [isKept, decide_eq_true_eq] at stays
      simp only [Span.mem_iff] at inside
      omega
    · intro r hr
      refine ⟨rfl, ?_⟩
      have shifts := (List.mem_filter.mp hr).2
      simp only [isMoved, Bool.and_eq_true, decide_eq_true_eq] at shifts
      simp only [StyleIndex.moved, Span.mem_iff, Splice.image]
      split at shifts
      · rename_i empty
        simp only [Span.isEmpty, decide_eq_true_eq] at empty
        omega
      · omega
    · intro r hr inside
      have := (List.mem_filter.mp hr).2
      simp only [isKept, decide_eq_true_eq] at this
      simp only [Span.mem_iff] at inside
      omega

/-- A byte that an edit moves reads as it did before, unless it is in the region that is reported
as lost. -/
theorem styleAt_apply {e : Splice} {p : Nat} (upright : e.old.start ≤ e.old.stop)
    (moved : e.preimage? o = some p) :
    (x.apply e).styleAt o = x.styleAt p ∨ ∃ region, x.lost e = some region ∧ o ∈ region := by
  by_cases dropped : ∃ r ∈ x.runs, p ∈ r.span ∧ isDropped e r = true
  · obtain ⟨r, stored, inside, drop⟩ := dropped
    exact Or.inr (mem_lost upright moved stored inside drop)
  · refine Or.inl (styleAt_apply_of_survives upright moved fun r hr inside => ?_)
    exact Bool.eq_false_iff.mpr fun drop => dropped ⟨r, hr, inside, drop⟩

/-- The new bytes of an edit read as unclassified. -/
theorem styleAt_apply_fresh {e : Splice} (fresh : o ∈ e.fresh) :
    (x.apply e).styleAt o = .unclassified := by
  rw [Splice.mem_fresh] at fresh
  rw [styleAt_eq_categoryAt, apply, categoryAt_coalesce]
  apply categoryAt_of_not_mem
  intro q hq inside
  rw [Span.mem_iff] at inside
  rcases List.mem_append.mp hq with kept | shifted
  · have := (List.mem_filter.mp kept).2
    simp only [isKept, decide_eq_true_eq] at this
    omega
  · obtain ⟨r, -, rfl⟩ := List.mem_map.mp shifted
    simp only [moved, Splice.image] at inside
    omega

end StyleIndex

end Highlighting
