import Highlighting.Proofs.Index
import Highlighting.Tree.Painting
import Mathlib.Data.List.Basic
import Mathlib.Data.List.TakeDrop
import Mathlib.Data.List.TakeWhile

/-!
What painting gives each byte.

`Rules.categoryAt` is the painter in its plain form: the strongest capture over a byte gives it its
style. Painting a span by a sweep gives every byte of it just that category
(`Rules.categoryAt_classify`), in runs that tile the span (`Rules.checkTiling_classify`). What a byte
is given therefore does not depend on the span with which it was classified.

The sweep is right because the layers that are open at a bound are those that have started and not
ended, with the strongest that has not ended in front (`Layer.Swept`), and because no layer starts or
ends between two bounds.
-/

namespace Highlighting

/-! ### Strength -/

namespace Stroke

theorem isLE_order_iff {a b : Stroke} : (a.order b).isLE = true ↔
    b.nodeLength < a.nodeLength ∨ b.nodeLength = a.nodeLength ∧ (a.depth < b.depth ∨
      a.depth = b.depth ∧ (a.priority < b.priority ∨
        a.priority = b.priority ∧ a.pattern ≤ b.pattern)) := by
  simp only [order, Ordering.isLE_then_iff_or, Nat.compare_eq_lt, Nat.compare_eq_eq,
    Nat.isLE_compare]

theorem isLE_order_trans (a b c : Stroke) (ab : (a.order b).isLE = true)
    (bc : (b.order c).isLE = true) : (a.order c).isLE = true := by
  rw [isLE_order_iff] at ab bc ⊢
  omega

theorem isLE_order_total (a b : Stroke) : ((a.order b).isLE || (b.order a).isLE) = true := by
  rw [Bool.or_eq_true, isLE_order_iff, isLE_order_iff]
  omega

/-- The strongest stroke; the last one of those that are equally strong. -/
def strongest? : List Stroke → Option Stroke
  | [] => none
  | a :: rest =>
    match strongest? rest with
    | none => some a
    | some w => if (a.order w).isLE then some w else some a

/-- Of the strokes that `keep` picks, the strongest stands last in order of strength. -/
theorem getLast?_filter_mergeSort (strokes : List Stroke) (keep : Stroke → Bool) :
    ((strokes.mergeSort fun a b => (a.order b).isLE).filter keep).getLast? =
      strongest? (strokes.filter keep) := by
  induction strokes with
  | nil => simp [strongest?]
  | cons a rest ih =>
      -- The sort is stable: it puts the first stroke in front of all that are not weaker than it.
      obtain ⟨before, behind, own, others, weaker⟩ :=
        List.mergeSort_cons isLE_order_trans isLE_order_total a rest
      have sorted := List.pairwise_mergeSort isLE_order_trans isLE_order_total (a :: rest)
      rw [others, List.filter_append] at ih
      rw [own] at sorted ⊢
      have stronger : ∀ w ∈ behind, (a.order w).isLE = true :=
        (List.pairwise_cons.mp (List.pairwise_append.mp sorted).2.1).1
      rw [List.filter_append]
      by_cases kept : keep a
      · rw [List.filter_cons_of_pos kept, List.filter_cons_of_pos kept, strongest?, ← ih]
        cases last : (behind.filter keep).getLast? with
        | some w =>
            have mem := (List.mem_filter.mp (List.mem_of_getLast? last)).1
            simp [List.getLast?_append, List.getLast?_cons, last, stronger w mem]
        | none =>
            rw [List.getLast?_eq_none_iff] at last
            rw [last, List.append_nil, List.getLast?_concat]
            cases front : (before.filter keep).getLast? with
            | none => rfl
            | some w =>
                have mem := (List.mem_filter.mp (List.mem_of_getLast? front)).1
                have := weaker w mem
                simp only [Bool.not_eq_true'] at this
                simp [this]
      · rw [List.filter_cons_of_neg kept, List.filter_cons_of_neg kept, ih]

/-- What does not change the order does not change which stroke is the strongest. -/
theorem strongest?_map {f : Stroke → Stroke} (same : ∀ a b, (f a).order (f b) = a.order b)
    (strokes : List Stroke) : strongest? (strokes.map f) = (strongest? strokes).map f := by
  induction strokes with
  | nil => rfl
  | cons a rest ih =>
      rw [List.map_cons, strongest?, strongest?, ih]
      cases strongest? rest with
      | none => rfl
      | some w =>
          simp only [Option.map_some, same]
          split <;> rfl

end Stroke

/-! ### Layers -/

namespace Layer

theorem ranked_ofStrokes (strokes : List Stroke) :
    (ofStrokes strokes).Pairwise fun a b => a.rank < b.rank := by
  simp only [ofStrokes, List.pairwise_map]
  apply List.pairwise_iff_getElem.mpr
  intro m n hm hn before
  simp only [List.getElem_zipIdx]
  omega

theorem mem_ofStrokes {strokes : List Stroke} {l : Layer} (mem : l ∈ ofStrokes strokes) :
    ∃ k ∈ strokes, l.span = k.span := by
  simp only [ofStrokes, List.mem_map] at mem
  obtain ⟨⟨k, rank⟩, indexed, rfl⟩ := mem
  exact ⟨k, List.mem_mergeSort.mp (List.fst_mem_of_mem_zipIdx indexed), rfl⟩

/-- The style of the highest layer over an offset. -/
def topStyle? (layers : List Layer) (o : Nat) : Option StyleId :=
  ((layers.filter (·.span.contains o)).getLast?).map Layer.style

theorem topStyle?_ofStrokes (strokes : List Stroke) (o : Nat) :
    topStyle? (ofStrokes strokes) o =
      (Stroke.strongest? (strokes.filter (·.span.contains o))).map Stroke.style := by
  rw [← Stroke.getLast?_filter_mergeSort, topStyle?, ofStrokes]
  generalize strokes.mergeSort (fun a b => (a.order b).isLE) = sorted
  have unranked : sorted.filter (·.span.contains o) =
      (sorted.zipIdx.filter fun k => k.1.span.contains o).map Prod.fst := by
    rw [← List.zipIdx_map_fst 0 sorted, List.filter_map, List.zipIdx_map_fst]
    rfl
  rw [unranked]
  simp only [List.filter_map, List.getLast?_map, Option.map_map]
  rfl

/-! ### The sweep -/

theorem mem_openAmong {l k : Layer} {opened : List Layer} :
    k ∈ l.openAmong opened ↔ k = l ∨ k ∈ opened := by
  induction opened with
  | nil => simp [openAmong]
  | cons top rest ih =>
      unfold openAmong
      split
      · simp
      · rw [List.mem_cons, ih, List.mem_cons]
        exact or_left_comm

theorem falling_openAmong {l : Layer} {opened : List Layer}
    (falling : opened.Pairwise fun a b => b.rank ≤ a.rank) :
    (l.openAmong opened).Pairwise fun a b => b.rank ≤ a.rank := by
  induction opened with
  | nil => exact List.pairwise_singleton _ _
  | cons top rest ih =>
      obtain ⟨below, tail⟩ := List.pairwise_cons.mp falling
      unfold openAmong
      split
      · rename_i above
        refine List.pairwise_cons.mpr ⟨List.forall_mem_cons.mpr ⟨Nat.le_of_lt above, ?_⟩, falling⟩
        exact fun k hk => Nat.le_trans (below k hk) (Nat.le_of_lt above)
      · rename_i above
        refine List.pairwise_cons.mpr ⟨fun k hk => ?_, ih tail⟩
        rcases mem_openAmong.mp hk with rfl | hk
        · exact Nat.le_of_not_lt above
        · exact below k hk

theorem mem_foldl_openAmong {starting opened : List Layer} {k : Layer} :
    k ∈ starting.foldl (fun o l => l.openAmong o) opened ↔ k ∈ starting ∨ k ∈ opened := by
  induction starting generalizing opened with
  | nil => simp
  | cons l rest ih =>
      rw [List.foldl_cons, ih, mem_openAmong, List.mem_cons]
      rw [or_left_comm, or_assoc]

theorem falling_foldl_openAmong {starting opened : List Layer}
    (falling : opened.Pairwise fun a b => b.rank ≤ a.rank) :
    (starting.foldl (fun o l => l.openAmong o) opened).Pairwise fun a b => b.rank ≤ a.rank := by
  induction starting generalizing opened with
  | nil => exact falling
  | cons l rest ih => exact ih (falling_openAmong falling)

/-- What holds of the waiting and the open layers before the sweep comes to a bound. -/
structure Swept (layers : List Layer) (offset : Nat) (waiting opened : List Layer) : Prop where
  present : ∀ l ∈ layers, offset < l.span.stop → l ∈ waiting ∨ l ∈ opened
  waits : ∀ l ∈ waiting, l ∈ layers
  sorted : waiting.Pairwise fun a b => a.span.start ≤ b.span.start
  started : ∀ l ∈ opened, l ∈ layers ∧ l.span.start ≤ offset
  falling : opened.Pairwise fun a b => b.rank ≤ a.rank

/-- The open layers once those that start at a bound were opened and ended ones in front dropped. -/
def openedAt (offset : Nat) (waiting opened : List Layer) : List Layer :=
  expire offset
    ((waiting.takeWhile (·.span.start ≤ offset)).foldl (fun o l => l.openAmong o) opened)

theorem sweep_cons_cons (offset next : Nat) (bounds : List Nat) (waiting opened : List Layer) :
    sweep (offset :: next :: bounds) waiting opened =
      ⟨⟨offset, next⟩, frontCategory (openedAt offset waiting opened)⟩ ::
        sweep (next :: bounds) (waiting.dropWhile (·.span.start ≤ offset))
          (openedAt offset waiting opened) := by
  rw [sweep, List.span_eq_takeWhile_dropWhile]
  rfl

variable {layers waiting opened : List Layer} {offset next : Nat}

theorem mem_takeWhile_or_dropWhile {l : Layer} (p : Layer → Bool) (mem : l ∈ opened) :
    l ∈ opened.takeWhile p ∨ l ∈ opened.dropWhile p := by
  rw [← List.mem_append, List.takeWhile_append_dropWhile]
  exact mem

theorem mem_openedAt {l : Layer} (mem : l ∈ openedAt offset waiting opened) :
    l ∈ waiting ∧ l.span.start ≤ offset ∨ l ∈ opened := by
  have inside := (List.dropWhile_suffix _).subset mem
  rcases mem_foldl_openAmong.mp inside with starting | before
  · exact Or.inl ⟨(List.takeWhile_prefix _).subset starting,
      by simpa using List.mem_takeWhile_imp starting⟩
  · exact Or.inr before

theorem lt_start_of_mem_dropWhile {l : Layer}
    (sorted : waiting.Pairwise fun a b => a.span.start ≤ b.span.start)
    (mem : l ∈ waiting.dropWhile (·.span.start ≤ offset)) : offset < l.span.start := by
  induction waiting with
  | nil => cases mem
  | cons first rest ih =>
      obtain ⟨behind, tail⟩ := List.pairwise_cons.mp sorted
      by_cases starts : first.span.start ≤ offset
      · rw [List.dropWhile_cons_of_pos (by simpa using starts)] at mem
        exact ih tail mem
      · rw [List.dropWhile_cons_of_neg (by simpa using starts)] at mem
        rcases List.mem_cons.mp mem with rfl | mem
        · exact Nat.lt_of_not_le starts
        · exact Nat.lt_of_lt_of_le (Nat.lt_of_not_le starts) (behind l mem)

/-- Nothing is dropped that has not ended. -/
theorem mem_openedAt_of_lt {l : Layer} (swept : Swept layers offset waiting opened)
    (mem : l ∈ waiting ∧ l.span.start ≤ offset ∨ l ∈ opened) (ahead : offset < l.span.stop) :
    l ∈ openedAt offset waiting opened := by
  have starting : l ∈ waiting.takeWhile (·.span.start ≤ offset) ∨ l ∈ opened := by
    refine mem.imp_left fun ⟨waits, starts⟩ => ?_
    apply (mem_takeWhile_or_dropWhile _ waits).resolve_right
    intro later
    exact Nat.not_lt.mpr starts (lt_start_of_mem_dropWhile swept.sorted later)
  have inside := mem_foldl_openAmong.mpr starting
  apply (mem_takeWhile_or_dropWhile _ inside).resolve_left
  intro ended
  have := List.mem_takeWhile_imp ended
  simp only [decide_eq_true_eq] at this
  exact Nat.not_lt.mpr this ahead

theorem falling_openedAt (swept : Swept layers offset waiting opened) :
    (openedAt offset waiting opened).Pairwise fun a b => b.rank ≤ a.rank :=
  (falling_foldl_openAmong swept.falling).sublist (List.dropWhile_sublist _)

/-- The sweep goes on to a later bound. -/
theorem Swept.step (swept : Swept layers offset waiting opened) (onwards : offset ≤ next) :
    Swept layers next (waiting.dropWhile (·.span.start ≤ offset))
      (openedAt offset waiting opened) where
  present := by
    intro l hl ahead
    rcases swept.present l hl (by omega) with waits | opens
    · rcases mem_takeWhile_or_dropWhile (·.span.start ≤ offset) waits with starting | later
      · have starts := List.mem_takeWhile_imp starting
        simp only [decide_eq_true_eq] at starts
        exact Or.inr (mem_openedAt_of_lt swept
          (Or.inl ⟨(List.takeWhile_prefix _).subset starting, starts⟩) (by omega))
      · exact Or.inl later
    · exact Or.inr (mem_openedAt_of_lt swept (Or.inr opens) (by omega))
  waits := fun l hl => swept.waits l ((List.dropWhile_suffix _).subset hl)
  sorted := swept.sorted.sublist (List.dropWhile_sublist _)
  started := by
    intro l hl
    rcases mem_openedAt hl with ⟨waits, starts⟩ | opens
    · exact ⟨swept.waits l waits, by omega⟩
    · exact ⟨(swept.started l opens).1, Nat.le_trans (swept.started l opens).2 onwards⟩
  falling := falling_openedAt swept

/-- A layer over the offset that no other one outranks gives the style. -/
theorem topStyle?_eq_some {l : Layer} {o : Nat}
    (ranked : layers.Pairwise fun a b => a.rank < b.rank)
    (mem : l ∈ layers) (above : o ∈ l.span)
    (highest : ∀ k ∈ layers, o ∈ k.span → k.rank ≤ l.rank) :
    topStyle? layers o = some l.style := by
  have covers : l ∈ layers.filter (·.span.contains o) :=
    List.mem_filter.mpr ⟨mem, by simpa [Span.contains] using above⟩
  unfold topStyle?
  cases last : (layers.filter (·.span.contains o)).getLast? with
  | none =>
      rw [List.getLast?_eq_none_iff.mp last] at covers
      cases covers
  | some w =>
      obtain ⟨front, split⟩ := List.getLast?_eq_some_iff.mp last
      have ordered := ranked.filter (·.span.contains o)
      rw [split] at covers ordered
      rcases List.mem_append.mp covers with before | own
      · have below := (List.pairwise_append.mp ordered).2.2 l before w (List.mem_singleton_self w)
        obtain ⟨stored, inside⟩ := List.mem_filter.mp (List.mem_of_getLast? last)
        have := highest w stored (by simpa [Span.contains] using inside)
        omega
      · rw [List.mem_singleton.mp own]
        rfl

theorem topStyle?_eq_none {o : Nat} (free : ∀ k ∈ layers, o ∉ k.span) :
    topStyle? layers o = none := by
  unfold topStyle?
  rw [List.filter_eq_nil_iff.mpr]
  · rfl
  · intro k hk covers
    exact free k hk (by simpa [Span.contains] using covers)

/-- The front of the open layers is the highest layer over the bound. -/
theorem frontCategory_openedAt (ranked : layers.Pairwise fun a b => a.rank < b.rank)
    (swept : Swept layers offset waiting opened) :
    frontCategory (openedAt offset waiting opened) = .ofStyle? (topStyle? layers offset) := by
  have opens : ∀ k ∈ layers, offset ∈ k.span → k ∈ openedAt offset waiting opened := by
    intro k hk inside
    rw [Span.mem_iff] at inside
    refine mem_openedAt_of_lt swept ?_ inside.2
    exact (swept.present k hk inside.2).imp_left fun waits => ⟨waits, inside.1⟩
  cases front : openedAt offset waiting opened with
  | nil =>
      rw [topStyle?_eq_none]
      · rfl
      · intro k hk inside
        have := opens k hk inside
        rw [front] at this
        cases this
  | cons l rest =>
      have mem : l ∈ openedAt offset waiting opened := by simp [front]
      obtain ⟨stored, starts⟩ : l ∈ layers ∧ l.span.start ≤ offset := by
        rcases mem_openedAt mem with ⟨waits, starts⟩ | opens
        · exact ⟨swept.waits l waits, starts⟩
        · exact swept.started l opens
      have ahead : offset < l.span.stop := by
        have live := List.head?_dropWhile_not (fun k : Layer => decide (k.span.stop ≤ offset))
          ((waiting.takeWhile (·.span.start ≤ offset)).foldl (fun o l => l.openAmong o) opened)
        rw [← expire, ← openedAt, front] at live
        simpa using live
      rw [topStyle?_eq_some ranked stored ⟨starts, ahead⟩]
      · rfl
      · intro k hk inside
        have mem := opens k hk inside
        have falling := falling_openedAt swept
        rw [front] at mem falling
        rcases List.mem_cons.mp mem with rfl | behind
        · exact Nat.le_refl _
        · exact (List.pairwise_cons.mp falling).1 k behind

/-- Where no layer starts or ends, the highest layer stays. -/
theorem topStyle?_congr {o : Nat} (onwards : offset ≤ o)
    (quiet : ∀ l ∈ layers, ∀ b ∈ [l.span.start, l.span.stop], b ≤ offset ∨ o < b) :
    topStyle? layers o = topStyle? layers offset := by
  unfold topStyle?
  rw [List.filter_congr]
  intro l hl
  have starts := quiet l hl l.span.start (by simp)
  have stops := quiet l hl l.span.stop (by simp)
  simp only [Span.contains, Span.mem_iff, decide_eq_decide]
  omega

/-- The sweep gives each offset the style of the highest layer over it. -/
theorem categoryAt_sweep {bounds : List Nat} {o : Nat}
    (ranked : layers.Pairwise fun a b => a.rank < b.rank)
    (swept : Swept layers offset waiting opened)
    (ascending : (offset :: bounds).Pairwise fun a b => a < b)
    (complete : ∀ l ∈ layers, ∀ b ∈ [l.span.start, l.span.stop], b ≤ offset ∨ b ∈ bounds)
    (inside : offset ≤ o) (ahead : ∃ b ∈ bounds, o < b) :
    StyleRun.categoryAt (sweep (offset :: bounds) waiting opened) o =
      .ofStyle? (topStyle? layers o) := by
  induction bounds generalizing offset waiting opened with
  | nil =>
      obtain ⟨b, hb, -⟩ := ahead
      cases hb
  | cons next rest ih =>
      obtain ⟨behind, tail⟩ := List.pairwise_cons.mp ascending
      have onwards := behind next (by simp)
      rw [sweep_cons_cons, StyleRun.categoryAt]
      by_cases before : o < next
      · -- The top layer changes only at a bound, and there is none up to `o`.
        rw [if_pos ⟨inside, before⟩, frontCategory_openedAt ranked swept, topStyle?_congr inside]
        intro l hl b hb
        rcases complete l hl b hb with past | later
        · exact Or.inl past
        · right
          rcases List.mem_cons.mp later with rfl | later
          · exact before
          · exact Nat.lt_trans before ((List.pairwise_cons.mp tail).1 b later)
      · rw [if_neg fun mem => before mem.2]
        refine ih (swept.step (Nat.le_of_lt onwards)) tail (fun l hl b hb => ?_)
          (Nat.le_of_not_lt before) ?_
        · rcases complete l hl b hb with past | later
          · exact Or.inl (Nat.le_trans past (Nat.le_of_lt onwards))
          · rcases List.mem_cons.mp later with rfl | later
            · exact Or.inl (Nat.le_refl _)
            · exact Or.inr later
        · obtain ⟨b, hb, ahead⟩ := ahead
          rcases List.mem_cons.mp hb with rfl | hb
          · exact absurd ahead before
          · exact ⟨b, hb, ahead⟩

theorem checkTiling_sweep {bounds : List Nat} {stop : Nat}
    (ascending : (offset :: bounds).Pairwise fun a b => a < b)
    (last : (offset :: bounds).getLast? = some stop) :
    checkTiling offset stop (sweep (offset :: bounds) waiting opened) = .ok () := by
  induction bounds generalizing offset waiting opened with
  | nil =>
      simp only [List.getLast?_singleton, Option.some.injEq] at last
      exact StyleIndex.checkTiling_nil.mpr last
  | cons next rest ih =>
      obtain ⟨behind, tail⟩ := List.pairwise_cons.mp ascending
      rw [sweep_cons_cons, StyleIndex.checkTiling_cons]
      exact ⟨rfl, behind next (by simp), ih tail (by rwa [List.getLast?_cons_cons] at last)⟩

/-! ### Bounds -/

theorem eraseReps_loop (a : Nat) (rest acc : List Nat) :
    List.eraseRepsBy.loop (· == ·) a rest acc = acc.reverse ++ (a :: rest).eraseReps := by
  induction rest generalizing a acc with
  | nil => simp [List.eraseReps, List.eraseRepsBy, List.eraseRepsBy.loop]
  | cons b rest ih =>
      simp only [List.eraseReps, List.eraseRepsBy, List.eraseRepsBy.loop]
      split
      · rw [ih, ih]
        rfl
      · rw [ih, ih b [a]]
        simp [List.append_assoc]

theorem eraseReps_cons_cons (a b : Nat) (rest : List Nat) :
    (a :: b :: rest).eraseReps =
      if a = b then (a :: rest).eraseReps else a :: (b :: rest).eraseReps := by
  rw [List.eraseReps, List.eraseRepsBy, List.eraseRepsBy.loop]
  by_cases same : a = b
  · simp [same, eraseReps_loop]
  · rw [if_neg same, beq_eq_false_iff_ne.mpr same]
    exact eraseReps_loop b rest [a]

/-- A sorted list loses exactly what it holds twice. -/
theorem eraseReps_sorted {a : Nat} {rest : List Nat}
    (sorted : (a :: rest).Pairwise fun a b => a ≤ b) :
    (a :: rest).eraseReps.Pairwise (fun a b => a < b) ∧
      ∀ b, b ∈ (a :: rest).eraseReps ↔ b ∈ a :: rest := by
  induction rest generalizing a with
  | nil => exact ⟨List.pairwise_singleton _ _, fun b => Iff.rfl⟩
  | cons b rest ih =>
      obtain ⟨behind, tail⟩ := List.pairwise_cons.mp sorted
      obtain ⟨ascending, same⟩ := ih tail
      rw [eraseReps_cons_cons]
      split
      · rename_i eq
        subst eq
        refine ⟨ascending, fun c => (same c).trans ?_⟩
        simp
      · rename_i other
        refine ⟨List.pairwise_cons.mpr ⟨fun c hc => ?_, ascending⟩, fun c => ?_⟩
        · have first := behind b (by simp)
          rcases List.mem_cons.mp ((same c).mp hc) with rfl | hc
          · omega
          · have := (List.pairwise_cons.mp tail).1 c hc
            omega
        · rw [List.mem_cons, same c, ← List.mem_cons]

theorem sorted_ends (s : Span) (layers : List Layer) :
    (((layers.flatMap fun l => [l.span.start, l.span.stop]) ++
      [s.start, s.stop]).mergeSort).Pairwise fun a b => a ≤ b := by
  refine List.Pairwise.imp (fun le => of_decide_eq_true le) (List.pairwise_mergeSort ?_ ?_ _)
  · simpa using fun a b c : Nat => Nat.le_trans
  · simpa using fun a b : Nat => Nat.le_total a b

theorem ascending_bounds (s : Span) (layers : List Layer) :
    (bounds s layers).Pairwise fun a b => a < b := by
  have sorted := sorted_ends s layers
  unfold bounds
  cases ends : ((layers.flatMap fun l => [l.span.start, l.span.stop]) ++
      [s.start, s.stop]).mergeSort with
  | nil => exact List.Pairwise.nil
  | cons a rest =>
      rw [ends] at sorted
      exact (eraseReps_sorted sorted).1

theorem mem_bounds {s : Span} {b : Nat} : b ∈ bounds s layers ↔
    (∃ l ∈ layers, b ∈ [l.span.start, l.span.stop]) ∨ b = s.start ∨ b = s.stop := by
  have sorted := sorted_ends s layers
  have ends : b ∈ ((layers.flatMap fun l => [l.span.start, l.span.stop]) ++
      [s.start, s.stop]).mergeSort ↔
      (∃ l ∈ layers, b ∈ [l.span.start, l.span.stop]) ∨ b = s.start ∨ b = s.stop := by
    rw [List.mem_mergeSort, List.mem_append, List.mem_flatMap]
    simp only [List.mem_cons, List.not_mem_nil, or_false]
  rw [← ends]
  unfold bounds
  cases split : ((layers.flatMap fun l => [l.span.start, l.span.stop]) ++
      [s.start, s.stop]).mergeSort with
  | nil => exact Iff.rfl
  | cons a rest =>
      rw [split] at sorted
      exact (eraseReps_sorted sorted).2 b

/-- The bounds go from the start of the span to its stop. -/
theorem exists_bounds {s : Span}
    (inside : ∀ l ∈ layers, ∀ b ∈ [l.span.start, l.span.stop], s.start ≤ b ∧ b ≤ s.stop)
    (upright : s.start ≤ s.stop) :
    ∃ rest, bounds s layers = s.start :: rest ∧ (s.start :: rest).getLast? = some s.stop := by
  have ascending := ascending_bounds s layers
  have start : s.start ∈ bounds s layers := mem_bounds.mpr (Or.inr (Or.inl rfl))
  have stop : s.stop ∈ bounds s layers := mem_bounds.mpr (Or.inr (Or.inr rfl))
  have within : ∀ b ∈ bounds s layers, s.start ≤ b ∧ b ≤ s.stop := by
    intro b hb
    rcases mem_bounds.mp hb with ⟨l, hl, hb⟩ | rfl | rfl
    · exact inside l hl b hb
    · exact ⟨Nat.le_refl _, upright⟩
    · exact ⟨upright, Nat.le_refl _⟩
  cases eq : bounds s layers with
  | nil =>
      rw [eq] at start
      cases start
  | cons first rest =>
      rw [eq] at ascending start stop within
      have first_eq : first = s.start := by
        rcases List.mem_cons.mp start with same | later
        · exact same.symm
        · have := (List.pairwise_cons.mp ascending).1 _ later
          have := within first (by simp)
          omega
      subst first_eq
      refine ⟨rest, rfl, ?_⟩
      obtain ⟨w, last⟩ := Option.isSome_iff_exists.mp
        (List.getLast?_isSome.mpr (List.cons_ne_nil s.start rest))
      obtain ⟨front, split⟩ := List.getLast?_eq_some_iff.mp last
      have bound := within w (List.mem_of_getLast? last)
      rw [split] at stop ascending
      rcases List.mem_append.mp stop with before | own
      · have := (List.pairwise_append.mp ascending).2.2 _ before w (List.mem_singleton_self w)
        omega
      · rw [last, List.mem_singleton.mp own]

theorem swept_start (first : Nat) :
    Swept layers first (layers.mergeSort fun a b => a.span.start ≤ b.span.start) [] where
  present := fun l hl _ => Or.inl (List.mem_mergeSort.mpr hl)
  waits := fun l hl => List.mem_mergeSort.mp hl
  sorted := by
    refine List.Pairwise.imp (fun le => of_decide_eq_true le) (List.pairwise_mergeSort ?_ ?_ _)
    · simpa using fun a b c : Layer => Nat.le_trans
    · simpa using fun a b : Layer => Nat.le_total _ _
  started := nofun
  falling := List.Pairwise.nil

end Layer

/-! ### Painting -/

/-- The stroke was clipped to the span. -/
def Stroke.Clipped (s : Span) (k : Stroke) : Prop :=
  s.start ≤ k.span.start ∧ k.span.start ≤ k.span.stop ∧ k.span.stop ≤ s.stop

section Paint

variable {s : Span} {strokes : List Stroke} {o : Nat}

theorem ends_inside (clipped : ∀ k ∈ strokes, Stroke.Clipped s k) :
    ∀ l ∈ Layer.ofStrokes strokes, ∀ b ∈ [l.span.start, l.span.stop],
      s.start ≤ b ∧ b ≤ s.stop := by
  intro l hl b hb
  obtain ⟨k, hk, span⟩ := Layer.mem_ofStrokes hl
  obtain ⟨starts, upright, stops⟩ := clipped k hk
  rw [span] at hb
  simp only [List.mem_cons, List.not_mem_nil, or_false] at hb
  omega

theorem checkTiling_paint (nonempty : s.start < s.stop)
    (clipped : ∀ k ∈ strokes, Stroke.Clipped s k) :
    checkTiling s.start s.stop (paint s strokes) = .ok () := by
  obtain ⟨rest, bounds, last⟩ :=
    Layer.exists_bounds (ends_inside clipped) (Nat.le_of_lt nonempty)
  have ascending := Layer.ascending_bounds s (Layer.ofStrokes strokes)
  rw [bounds] at ascending
  dsimp only [paint]
  rw [bounds]
  exact StyleIndex.checkTiling_coalesce (Layer.checkTiling_sweep ascending last)

/-- Painting gives each byte the style of the strongest stroke over it. -/
theorem categoryAt_paint (mem : o ∈ s)
    (clipped : ∀ k ∈ strokes, Stroke.Clipped s k) :
    StyleRun.categoryAt (paint s strokes) o =
      .ofStyle? ((Stroke.strongest? (strokes.filter (·.span.contains o))).map Stroke.style) := by
  have nonempty : s.start < s.stop := Nat.lt_of_le_of_lt mem.1 mem.2
  have ends := ends_inside clipped
  obtain ⟨rest, bounds, last⟩ := Layer.exists_bounds ends (Nat.le_of_lt nonempty)
  have ascending := Layer.ascending_bounds s (Layer.ofStrokes strokes)
  have complete : ∀ l ∈ Layer.ofStrokes strokes, ∀ b ∈ [l.span.start, l.span.stop],
      b ∈ s.start :: rest := by
    intro l hl b hb
    rw [← bounds]
    exact Layer.mem_bounds.mpr (Or.inl ⟨l, hl, hb⟩)
  rw [bounds] at ascending
  have stop : s.stop ∈ rest := by
    rcases List.mem_cons.mp (List.mem_of_getLast? last) with same | later
    · exact absurd same (Nat.ne_of_gt nonempty)
    · exact later
  dsimp only [paint]
  rw [bounds, StyleRun.categoryAt_coalesce, ← Layer.topStyle?_ofStrokes]
  refine Layer.categoryAt_sweep (Layer.ranked_ofStrokes strokes) (Layer.swept_start _) ascending
    (fun l hl b hb => ?_) mem.1 ⟨s.stop, stop, mem.2⟩
  rcases List.mem_cons.mp (complete l hl b hb) with rfl | later
  · exact Or.inl (Nat.le_refl _)
  · exact Or.inr later

end Paint

/-! ### Classification -/

namespace Stroke

/-- The stroke of a capture over an offset, with all of its node; `none` for a capture without a
style or elsewhere. -/
def covering? (rules : Rules) (o : Nat) (c : Capture) : Option Stroke :=
  if o ∈ c.node then
    (rules.captureStyle? c.index).map fun style =>
      ⟨c.node, c.node.length, c.depth, rules.grammar.priority c.pattern, c.pattern, style⟩
  else none

/-- The stroke inside a span that it meets. -/
def clip (s : Span) (k : Stroke) : Stroke :=
  { k with span := (k.span.inter? s).getD k.span }

theorem ofCapture?_eq_some {rules : Rules} {s : Span} {c : Capture} {k : Stroke}
    (eq : ofCapture? rules s c = some k) : c.node.inter? s = some k.span := by
  simp only [ofCapture?, Option.bind_eq_bind, Option.bind_eq_some_iff, Option.pure_def,
    Option.some.injEq] at eq
  obtain ⟨style, -, clipped, inter, rfl⟩ := eq
  exact inter

theorem clipped_ofCapture? {rules : Rules} {s : Span} {captures : List Capture} :
    ∀ k ∈ captures.filterMap (ofCapture? rules s), k.Clipped s := by
  intro k hk
  obtain ⟨c, -, eq⟩ := List.mem_filterMap.mp hk
  have inter := ofCapture?_eq_some eq
  unfold Span.inter? at inter
  dsimp only at inter
  split at inter
  · rename_i upright
    rw [Option.some.injEq] at inter
    rw [Clipped, ← inter]
    exact ⟨Nat.le_max_right _ _, Nat.le_of_lt upright, Nat.min_le_right _ _⟩
  · cases inter

/-- Over an offset of the span, clipping leaves a stroke. -/
theorem filter_ofCapture? {rules : Rules} {s : Span} {o : Nat} (mem : o ∈ s) (c : Capture) :
    (ofCapture? rules s c).filter (·.span.contains o) = (covering? rules o c).map (clip s) := by
  have common : (∃ u, c.node.inter? s = some u ∧ o ∈ u) ↔ o ∈ c.node := by
    rw [Span.mem_inter?, and_iff_left mem]
  unfold ofCapture? covering?
  cases rules.captureStyle? c.index with
  | none => simp
  | some style =>
      cases inter : c.node.inter? s with
      | none =>
          rw [inter] at common
          rw [if_neg fun inside => by simpa using common.mpr inside]
          rfl
      | some u =>
          simp only [inter, Option.some.injEq, exists_eq_left'] at common
          by_cases inside : o ∈ c.node
          · have within := common.mpr inside
            simp [clip, inter, inside, Option.filter, Span.contains, within]
          · have beside : o ∉ u := fun within => inside (common.mp within)
            simp [inside, Option.filter, Span.contains, beside]

end Stroke

namespace Rules

/-- The category that a list of captures gives an offset. -/
def categoryAt (rules : Rules) (captures : List Capture) (o : Nat) : Category :=
  match rules.grammar.query with
  | none => .unclassified
  | some _ =>
    .ofStyle? ((Stroke.strongest? (captures.filterMap (Stroke.covering? rules o))).map Stroke.style)

variable {rules : Rules} {captures : List Capture} {s : Span} {o : Nat}

/-- Of the clipped strokes, those over an offset are the strokes over it. -/
theorem filter_strokes (mem : o ∈ s) :
    (captures.filterMap (Stroke.ofCapture? rules s)).filter (·.span.contains o) =
      (captures.filterMap (Stroke.covering? rules o)).map (Stroke.clip s) := by
  rw [List.filter_filterMap, List.map_filterMap]
  exact List.filterMap_congr fun c _ => Stroke.filter_ofCapture? mem c

/-- A classified span is tiled by its runs. -/
theorem checkTiling_classify (nonempty : s.start < s.stop) :
    checkTiling s.start s.stop (rules.classify captures s) = .ok () := by
  unfold classify
  rw [if_neg (by simp only [Span.isEmpty, decide_eq_true_eq]; omega)]
  split
  · exact StyleIndex.checkTiling_cons.mpr ⟨rfl, nonempty, StyleIndex.checkTiling_nil.mpr rfl⟩
  · exact checkTiling_paint nonempty Stroke.clipped_ofCapture?

/-- What a byte is given does not depend on the span with which it is classified. -/
theorem categoryAt_classify (mem : o ∈ s) :
    StyleRun.categoryAt (rules.classify captures s) o = rules.categoryAt captures o := by
  unfold classify categoryAt
  rw [if_neg fun empty => Span.isEmpty_iff.mp empty o mem]
  cases rules.grammar.query with
  | none => exact if_pos mem
  | some query =>
      dsimp only
      rw [categoryAt_paint mem Stroke.clipped_ofCapture?, filter_strokes mem,
        Stroke.strongest?_map (f := Stroke.clip s) fun _ _ => rfl, Option.map_map]
      rfl

/-- Captures elsewhere do not matter to a byte. -/
theorem categoryAt_filter_meets (mem : o ∈ s) :
    rules.categoryAt (captures.filter (·.node.meets s)) o = rules.categoryAt captures o := by
  have same : (captures.filter (·.node.meets s)).filterMap (Stroke.covering? rules o) =
      captures.filterMap (Stroke.covering? rules o) := by
    rw [List.filterMap_filter]
    apply List.filterMap_congr
    intro c _
    by_cases within : o ∈ c.node
    · rw [if_pos]
      rw [Span.mem_iff] at within mem
      simp only [Span.meets, Bool.and_eq_true, decide_eq_true_eq]
      omega
    · rw [Stroke.covering?, if_neg within, ite_self]
  unfold categoryAt
  rw [same]

end Rules

namespace SyntaxTree

/-- The category that a tree gives an offset of its text. -/
def categoryAt (t : SyntaxTree) (rules : Rules) (o : Nat) : Category :=
  rules.categoryAt t.captures o

variable {t : SyntaxTree} {rules : Rules} {s : Span} {o : Nat}

theorem checkTiling_classify (nonempty : s.start < s.stop) :
    checkTiling s.start s.stop (t.classify rules s) = .ok () :=
  Rules.checkTiling_classify nonempty

theorem categoryAt_classify (mem : o ∈ s) :
    StyleRun.categoryAt (t.classify rules s) o = t.categoryAt rules o := by
  rw [classify, Rules.categoryAt_classify mem]
  exact Rules.categoryAt_filter_meets mem

end SyntaxTree

end Highlighting
