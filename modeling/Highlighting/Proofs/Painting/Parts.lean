import Highlighting.Proofs.Index.Canonical
import Highlighting.Proofs.Painting.Winners

/-!
Classification in parts.

A span may be cut anywhere: inside a node, at its ends, or between captures that are equally strong.
Each part is classified from the captures that meet it alone, with strokes clipped to the part, so
the sweep over a part has other bounds and other layers than the sweep over the whole. Still a byte
is given the category that the captures over it decide, so the runs of the parts store for each byte
what the runs of the whole store (`SyntaxTree.holds_parts`). Pushed one after another they coalesce,
and coalesced lists that store the same are the same list.

So an index is left the same whether a span is stored at once or part by part, in whatever order the
parts are stored.
-/

namespace Highlighting

namespace Span

variable {start stop o : Nat} {ss : List Span}

/-- The spans follow one another from `start` to `stop` without a gap, and none is empty. -/
def Consecutive (start stop : Nat) : List Span → Prop
  | [] => start = stop
  | s :: rest => s.start = start ∧ s.start < s.stop ∧ Consecutive s.stop stop rest

theorem Consecutive.nonempty (cut : Consecutive start stop ss) :
    ∀ s ∈ ss, s.start < s.stop := by
  induction ss generalizing start with
  | nil => exact nofun
  | cons s rest ih =>
      obtain ⟨-, nonempty, cut⟩ := cut
      exact List.forall_mem_cons.mpr ⟨nonempty, ih cut⟩

theorem Consecutive.start_le_stop (cut : Consecutive start stop ss) : start ≤ stop := by
  induction ss generalizing start with
  | nil => exact Nat.le_of_eq cut
  | cons s rest ih =>
      obtain ⟨rfl, nonempty, cut⟩ := cut
      exact Nat.le_trans (Nat.le_of_lt nonempty) (ih cut)

/-- Together the spans have the offsets from the first start to the last stop. -/
theorem Consecutive.exists_mem_iff (cut : Consecutive start stop ss) :
    (∃ s ∈ ss, o ∈ s) ↔ start ≤ o ∧ o < stop := by
  induction ss generalizing start with
  | nil =>
      cases cut
      simp only [List.not_mem_nil, false_and, exists_false, false_iff]
      omega
  | cons s rest ih =>
      obtain ⟨rfl, nonempty, cut⟩ := cut
      have := cut.start_le_stop
      rw [List.exists_mem_cons_iff, ih cut, mem_iff]
      omega

end Span

/-! ### Tilings -/

namespace StyleRun

variable {o : Nat} {c : Category}

/-- A run of a tiling stands over each offset of the span. -/
theorem holds_categoryAt {s : Span} {runs : List StyleRun}
    (tiles : checkTiling s.start s.stop runs = .ok ()) (inside : o ∈ s) :
    Holds runs o (categoryAt runs o) := by
  obtain ⟨start, stop⟩ := s
  dsimp only at tiles
  induction runs generalizing start with
  | nil =>
      cases StyleIndex.checkTiling_nil.mp tiles
      exact absurd inside.2 (Nat.not_lt.mpr inside.1)
  | cons r rest ih =>
      obtain ⟨starts, -, tiles⟩ := StyleIndex.checkTiling_cons.mp tiles
      rw [categoryAt, holds_cons]
      by_cases own : o ∈ r.span
      · rw [if_pos own]
        exact Or.inl ⟨own, rfl⟩
      · rw [if_neg own]
        refine Or.inr (ih r.span.stop tiles ⟨Nat.le_of_not_lt fun before => own ⟨?_, before⟩, ?_⟩)
        · exact starts ▸ inside.1
        · exact inside.2

/-- A tiling stores for the offsets of its span the category that it gives them. -/
theorem holds_iff_of_checkTiling {s : Span} {runs : List StyleRun}
    (tiles : checkTiling s.start s.stop runs = .ok ()) :
    Holds runs o c ↔ o ∈ s ∧ categoryAt runs o = c := by
  have given : ∀ inside : o ∈ s, Holds runs o (categoryAt runs o) := holds_categoryAt tiles
  constructor
  · intro holds
    have inside := StyleIndex.mem_of_holds tiles holds
    exact ⟨inside, (ascending_of_checkTiling tiles).eq_of_holds (given inside) holds⟩
  · rintro ⟨inside, rfl⟩
    exact given inside

theorem checkTiling_append {start middle stop : Nat} {left right : List StyleRun}
    (first : checkTiling start middle left = .ok ())
    (second : checkTiling middle stop right = .ok ()) :
    checkTiling start stop (left ++ right) = .ok () := by
  induction left generalizing start with
  | nil =>
      cases StyleIndex.checkTiling_nil.mp first
      exact second
  | cons r rest ih =>
      obtain ⟨starts, nonempty, tiles⟩ := StyleIndex.checkTiling_cons.mp first
      exact StyleIndex.checkTiling_cons.mpr ⟨starts, nonempty, ih tiles⟩

/-- Tilings of spans that follow one another make up a tiling. -/
theorem checkTiling_flatMap {start stop : Nat} {parts : List Span} {runs : Span → List StyleRun}
    (cut : Span.Consecutive start stop parts)
    (tiles : ∀ p ∈ parts, checkTiling p.start p.stop (runs p) = .ok ()) :
    checkTiling start stop (parts.flatMap runs) = .ok () := by
  induction parts generalizing start with
  | nil => exact StyleIndex.checkTiling_nil.mpr cut
  | cons p rest ih =>
      obtain ⟨rfl, -, cut⟩ := cut
      obtain ⟨first, others⟩ := List.forall_mem_cons.mp tiles
      rw [List.flatMap_cons]
      exact checkTiling_append first (ih cut others)

end StyleRun

/-! ### Parts and the whole -/

namespace SyntaxTree

open StyleRun

variable {t : SyntaxTree} {rules : Rules} {s : Span} {parts : List Span} {o : Nat} {c : Category}

theorem holds_classify (nonempty : s.start < s.stop) :
    Holds (t.classify rules s) o c ↔ o ∈ s ∧ t.categoryAt rules o = c := by
  rw [holds_iff_of_checkTiling (checkTiling_classify nonempty)]
  refine and_congr_right fun inside => ?_
  rw [categoryAt_classify inside]

theorem canonical_classify (nonempty : s.start < s.stop) : Canonical (t.classify rules s) where
  ascending := ascending_of_checkTiling (checkTiling_classify nonempty)
  apart := Rules.isChain_classify rules _ s

/-- The runs of the parts store what the runs of the whole store. -/
theorem holds_parts (cut : Span.Consecutive s.start s.stop parts) :
    Holds (parts.flatMap (t.classify rules)) o c ↔ o ∈ s ∧ t.categoryAt rules o = c := by
  have own : ∀ p ∈ parts, Holds (t.classify rules p) o c ↔ o ∈ p ∧ t.categoryAt rules o = c :=
    fun p hp => holds_classify (cut.nonempty p hp)
  have any : Holds (parts.flatMap (t.classify rules)) o c ↔
      ∃ p ∈ parts, Holds (t.classify rules p) o c := by
    simp only [Holds, List.mem_flatMap]
    constructor
    · rintro ⟨r, ⟨p, hp, hr⟩, held⟩
      exact ⟨p, hp, r, hr, held⟩
    · rintro ⟨p, hp, r, hr, held⟩
      exact ⟨r, ⟨p, hp, hr⟩, held⟩
  have inside : o ∈ s ↔ ∃ p ∈ parts, o ∈ p := cut.exists_mem_iff.symm
  rw [any, inside]
  constructor
  · rintro ⟨p, hp, held⟩
    obtain ⟨mem, same⟩ := (own p hp).mp held
    exact ⟨⟨p, hp, mem⟩, same⟩
  · rintro ⟨⟨p, hp, mem⟩, same⟩
    exact ⟨p, hp, (own p hp).mpr ⟨mem, same⟩⟩

/-- Coalesced, the runs of the parts are the runs of the whole. -/
theorem coalesce_parts (nonempty : s.start < s.stop)
    (cut : Span.Consecutive s.start s.stop parts) :
    coalesce (parts.flatMap (t.classify rules)) = t.classify rules s := by
  have tiles : checkTiling s.start s.stop (parts.flatMap (t.classify rules)) = .ok () :=
    checkTiling_flatMap cut fun p hp => checkTiling_classify (cut.nonempty p hp)
  have canonical : Canonical (coalesce (parts.flatMap (t.classify rules))) :=
    ⟨(ascending_of_checkTiling tiles).coalesce, isChain_coalesce _⟩
  refine canonical.eq_of_holds (canonical_classify nonempty) fun o c => ?_
  rw [holds_coalesce, holds_parts cut, holds_classify nonempty]

/-! ### Storing parts -/

/-- Stores what spans are given, one after another. -/
def storeAll (t : SyntaxTree) (rules : Rules) (x : StyleIndex) (spans : List Span) :
    Except TilingError StyleIndex :=
  spans.foldlM (fun x s => x.replace s (t.classify rules s)) x

/-- After that the index stores what the tree gives the offsets of the spans, and for all others
what it stored before. -/
theorem storeAll_eq (t : SyntaxTree) (rules : Rules) {spans : List Span} {x : StyleIndex}
    (canonical : Canonical x.runs) (nonempty : ∀ s ∈ spans, s.start < s.stop) :
    ∃ y, t.storeAll rules x spans = .ok y ∧ Canonical y.runs ∧
      ∀ o c, Holds y.runs o c ↔ ((∃ s ∈ spans, o ∈ s) ∧ t.categoryAt rules o = c) ∨
        (Holds x.runs o c ∧ ∀ s ∈ spans, o ∉ s) := by
  induction spans generalizing x with
  | nil => exact ⟨x, rfl, canonical, fun o c => by simp⟩
  | cons s rest ih =>
      obtain ⟨own, others⟩ := List.forall_mem_cons.mp nonempty
      have stored : x.replace s (t.classify rules s) = .ok _ :=
        StyleIndex.replace_of_tiling (checkTiling_classify own)
      obtain ⟨y, further, canonical, holds⟩ :=
        ih (StyleIndex.canonical_of_replace canonical stored) others
      refine ⟨y, ?_, canonical, fun o c => ?_⟩
      · rw [storeAll, List.foldlM_cons, stored]
        exact further
      · have free : (∀ p ∈ rest, o ∉ p) ↔ ¬∃ p ∈ rest, o ∈ p := by
          simp only [not_exists, not_and]
        rw [holds, StyleIndex.holds_of_replace stored, holds_classify own,
          List.exists_mem_cons_iff, List.forall_mem_cons, free]
        generalize (∃ p ∈ rest, o ∈ p) = later
        grind

/-- Classification in parts is classification of the whole: if a span is cut into parts that follow
one another, and each part is classified from the captures that meet it, then pushing the runs of
the parts one by one gives the runs of the whole span. An index that stores the parts, in any order,
is the index that stores the whole. -/
theorem parts_agree_with_whole (t : SyntaxTree) (rules : Rules) (nonempty : s.start < s.stop)
    (cut : Span.Consecutive s.start s.stop parts) :
    (parts.flatMap (t.classify rules)).foldl StyleRun.push [] = t.classify rules s ∧
      ∀ {x : StyleIndex} {order : List Span}, Canonical x.runs → parts.Perm order →
        ∃ y, t.storeAll rules x order = .ok y ∧ t.storeAll rules x [s] = .ok y := by
  constructor
  · rw [foldl_push, coalesce_parts nonempty cut]
  · intro x order canonical perm
    have pieces : ∀ p ∈ order, p.start < p.stop :=
      fun p hp => cut.nonempty p (perm.mem_iff.mpr hp)
    have whole : ∀ p ∈ [s], p.start < p.stop := List.forall_mem_singleton.mpr nonempty
    obtain ⟨y, stored, canonical₁, holds₁⟩ := t.storeAll_eq rules canonical pieces
    obtain ⟨z, atOnce, canonical₂, holds₂⟩ := t.storeAll_eq rules canonical whole
    have covered : ∀ o, (∃ p ∈ order, o ∈ p) ↔ ∃ p ∈ [s], o ∈ p := by
      intro o
      simp only [← perm.mem_iff, List.mem_singleton, exists_eq_left]
      exact cut.exists_mem_iff
    have same : y.runs = z.runs := by
      refine canonical₁.eq_of_holds canonical₂ fun o c => ?_
      have free : (∀ p ∈ order, o ∉ p) ↔ ∀ p ∈ [s], o ∉ p := by
        simpa only [not_exists, not_and] using not_congr (covered o)
      rw [holds₁, holds₂, covered o, free]
    cases y
    cases z
    cases same
    exact ⟨_, stored, atOnce⟩

/-- The cuts fall into two nodes and between two captures of one node, and the parts are stored from
the last to the first. -/
theorem parts_of_nested_nodes :
    let rules : Rules := ⟨⟨"calls", 14, some ⟨["call", "number", "comment"], []⟩, []⟩,
      [some 1, some 2, some 3]⟩
    let t : SyntaxTree := ⟨default, [⟨⟨0, 6⟩, 1, 0, 2⟩, ⟨⟨0, 6⟩, 1, 0, 0⟩, ⟨⟨2, 4⟩, 2, 0, 1⟩]⟩
    let parts : List Span := [⟨1, 3⟩, ⟨3, 5⟩, ⟨5, 9⟩]
    Span.Consecutive 1 9 parts ∧
      (parts.flatMap (t.classify rules)).foldl StyleRun.push [] =
        [⟨⟨1, 2⟩, .styled 1⟩, ⟨⟨2, 4⟩, .styled 2⟩, ⟨⟨4, 6⟩, .styled 1⟩, ⟨⟨6, 9⟩, .unclassified⟩] ∧
      ∃ y, t.storeAll rules .empty parts.reverse = .ok y ∧
        t.storeAll rules .empty [⟨1, 9⟩] = .ok y := by
  intro rules t parts
  have cut : Span.Consecutive 1 9 parts := by simp [parts, Span.Consecutive]
  obtain ⟨runs, stored⟩ := parts_agree_with_whole t rules (s := ⟨1, 9⟩) (by decide) cut
  have canonical : Canonical StyleIndex.empty.runs := ⟨ascending_nil, List.IsChain.nil⟩
  refine ⟨cut, ?_, stored canonical (List.reverse_perm parts).symm⟩
  rw [runs]
  cbv

end SyntaxTree

end Highlighting
