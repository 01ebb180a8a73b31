import Highlighting.Proofs.Naming
import Highlighting.Proofs.Painting
import Highlighting.Proofs.Runs
import Mathlib

/-!
The sweep against the plain painter.

The plain painter looks at one byte at a time: of the captures over the byte whose names the theme
resolves, the greatest gives it its style (`Painted`). Captures are compared by `Capture.strength`,
which ends with the place at which a capture arrived, so no two are equally strong and the greatest
one is unique.

Classification by a sweep gives each byte of a span just that category, in the coarsest tiling of
the span (`Rules.classify_paints`), whatever captures are reported and in whatever order.
-/

namespace Highlighting

/-- The style that a theme gives the name of a capture. -/
def Query.style? (q : Query) (theme : Theme) (c : Capture) : Option StyleId :=
  q.captureNames[c.index]?.bind theme.resolve?

/-- How strong a capture is that arrived at this place among all: first the smaller node counts,
then the greater depth, the greater priority of the pattern, the later pattern, and the later
place. -/
def Capture.strength (g : Grammar) (place : Nat) (c : Capture) : ℕᵒᵈ ×ₗ ℕ ×ₗ ℕ ×ₗ ℕ ×ₗ ℕ :=
  toLex (OrderDual.toDual c.node.length,
    toLex (c.depth, toLex (g.priority c.pattern, toLex (c.pattern, place))))

/-- The capture stands over the offset and has a style. -/
def Capture.Colours (q : Query) (theme : Theme) (o : Nat) (c : Capture) : Prop :=
  o ∈ c.node ∧ (q.style? theme c).isSome

/-- The category that the plain painter gives an offset: the style of the greatest of the captures
over it that have one. -/
def Painted (g : Grammar) (q : Query) (theme : Theme) (captures : List Capture) (o : Nat) :
    Category → Prop
  | .unclassified => ∀ c ∈ captures, ¬c.Colours q theme o
  | .styled style =>
    ∃ n c, captures[n]? = some c ∧ o ∈ c.node ∧ q.style? theme c = some style ∧
      ∀ (m : Nat) (d : Capture), captures[m]? = some d → d.Colours q theme o →
        d.strength g m ≤ c.strength g n

variable {g : Grammar} {q : Query} {theme : Theme} {captures : List Capture} {o : Nat}

/-! ### The strongest stroke -/

theorem Capture.strength_le_iff {m n : Nat} {c d : Capture} :
    d.strength g m ≤ c.strength g n ↔
      c.node.length < d.node.length ∨ c.node.length = d.node.length ∧ (d.depth < c.depth ∨
        d.depth = c.depth ∧ (g.priority d.pattern < g.priority c.pattern ∨
          g.priority d.pattern = g.priority c.pattern ∧ (d.pattern < c.pattern ∨
            d.pattern = c.pattern ∧ m ≤ n))) := by
  simp only [Capture.strength, Prod.Lex.toLex_le_toLex, OrderDual.toDual_lt_toDual,
    OrderDual.toDual_inj]
  rw [eq_comm (a := d.node.length)]

theorem Rules.captureStyle?_make (query : g.query = some q) (c : Capture) :
    (Rules.make g theme).captureStyle? c.index = q.style? theme c := by
  rw [captureStyle?_eq, Grammar.captureNames, query]
  rfl

theorem Stroke.covering?_make (query : g.query = some q) (c : Capture) :
    covering? (.make g theme) o c = if o ∈ c.node then
      (q.style? theme c).map fun style =>
        ⟨c.node, c.node.length, c.depth, g.priority c.pattern, c.pattern, style⟩
      else none := by
  unfold covering?
  rw [Rules.captureStyle?_make query]
  rfl

theorem Stroke.covering?_eq_none_iff (query : g.query = some q) {c : Capture} :
    covering? (.make g theme) o c = none ↔ ¬c.Colours q theme o := by
  rw [covering?_make query, Capture.Colours]
  by_cases inside : o ∈ c.node
  · simp [inside]
  · simp [inside]

theorem Stroke.covering?_eq_some (query : g.query = some q) {c : Capture} {k : Stroke}
    (covers : covering? (.make g theme) o c = some k) :
    o ∈ c.node ∧ q.style? theme c = some k.style ∧ k.nodeLength = c.node.length ∧
      k.depth = c.depth ∧ k.priority = g.priority c.pattern ∧ k.pattern = c.pattern := by
  rw [covering?_make query] at covers
  split at covers
  · rename_i inside
    obtain ⟨style, named, rfl⟩ := Option.map_eq_some_iff.mp covers
    exact ⟨inside, named, rfl, rfl, rfl, rfl⟩
  · cases covers

/-- A capture that is as strong as an earlier one, or stronger, by all but the place. -/
theorem Stroke.strength_le_of_isLE (query : g.query = some q) {a c : Capture} {k w : Stroke}
    (first : covering? (.make g theme) o a = some k) (second : covering? (.make g theme) o c = some w)
    (weaker : (k.order w).isLE = true) (n : Nat) : a.strength g 0 ≤ c.strength g n := by
  obtain ⟨-, -, length, depth, priority, pattern⟩ := covering?_eq_some query first
  obtain ⟨-, -, length', depth', priority', pattern'⟩ := covering?_eq_some query second
  rw [isLE_order_iff] at weaker
  rw [Capture.strength_le_iff]
  omega

/-- A capture that is weaker than another by more than the place is so at any places. -/
theorem Stroke.strength_le_of_not_isLE (query : g.query = some q) {a c : Capture} {k w : Stroke}
    (first : covering? (.make g theme) o a = some k) (second : covering? (.make g theme) o c = some w)
    (stronger : ¬(k.order w).isLE = true) (m n : Nat) : c.strength g m ≤ a.strength g n := by
  obtain ⟨-, -, length, depth, priority, pattern⟩ := covering?_eq_some query first
  obtain ⟨-, -, length', depth', priority', pattern'⟩ := covering?_eq_some query second
  rw [isLE_order_iff] at stronger
  rw [Capture.strength_le_iff]
  omega

theorem Capture.strength_succ_le {m n : Nat} {c d : Capture}
    (le : d.strength g m ≤ c.strength g n) : d.strength g (m + 1) ≤ c.strength g (n + 1) := by
  rw [Capture.strength_le_iff] at le ⊢
  omega

/-- The strongest stroke over an offset is that of the greatest capture. -/
theorem Stroke.greatest_of_strongest? (query : g.query = some q) (captures : List Capture) :
    match strongest? (captures.filterMap (covering? (.make g theme) o)) with
    | none => ∀ c ∈ captures, ¬c.Colours q theme o
    | some k =>
      ∃ n c, captures[n]? = some c ∧ covering? (.make g theme) o c = some k ∧
        ∀ (m : Nat) (d : Capture), captures[m]? = some d → d.Colours q theme o →
          d.strength g m ≤ c.strength g n := by
  -- `strongest?` folds from the last capture. A later arrival is the stronger of equals, so the
  -- head wins only where it is strictly above what was found behind it.
  induction captures with
  | nil => exact nofun
  | cons a rest ih =>
      cases covers : covering? (.make g theme) o a with
      | none =>
          have pale := (covering?_eq_none_iff query).mp covers
          rw [List.filterMap_cons_none covers]
          split
          · rename_i none
            rw [none] at ih
            exact List.forall_mem_cons.mpr ⟨pale, ih⟩
          · rename_i w some
            rw [some] at ih
            obtain ⟨n, c, place, own, greatest⟩ := ih
            refine ⟨n + 1, c, place, own, fun m d arrived colours => ?_⟩
            cases m with
            | zero =>
                cases arrived
                exact absurd colours pale
            | succ m => exact Capture.strength_succ_le (greatest m d arrived colours)
      | some k =>
          rw [List.filterMap_cons_some covers, strongest?]
          cases others : strongest? (rest.filterMap (covering? (.make g theme) o)) with
          | none =>
              rw [others] at ih
              refine ⟨0, a, rfl, covers, fun m d arrived colours => ?_⟩
              cases m with
              | zero =>
                  cases arrived
                  exact le_refl _
              | succ m => exact absurd colours (ih d (List.mem_of_getElem? arrived))
          | some w =>
              rw [others] at ih
              obtain ⟨n, c, place, own, greatest⟩ := ih
              dsimp only
              by_cases weaker : (k.order w).isLE = true
              · rw [if_pos weaker]
                refine ⟨n + 1, c, place, own, fun m d arrived colours => ?_⟩
                cases m with
                | zero =>
                    cases arrived
                    exact strength_le_of_isLE query covers own weaker _
                | succ m => exact Capture.strength_succ_le (greatest m d arrived colours)
              · rw [if_neg weaker]
                refine ⟨0, a, rfl, covers, fun m d arrived colours => ?_⟩
                cases m with
                | zero =>
                    cases arrived
                    exact le_refl _
                | succ m =>
                    have below := greatest m d arrived colours
                    exact le_trans (Capture.strength_succ_le below)
                      (strength_le_of_not_isLE query covers own weaker _ _)

/-- The category that a list of captures gives an offset is the one of the plain painter. -/
theorem Rules.painted_categoryAt (query : g.query = some q) (captures : List Capture) :
    Painted g q theme captures o ((Rules.make g theme).categoryAt captures o) := by
  have greatest := @Stroke.greatest_of_strongest? g q theme o query captures
  unfold categoryAt
  have same : (Rules.make g theme).grammar.query = some q := query
  rw [same]
  dsimp only
  cases strongest : Stroke.strongest?
      (captures.filterMap (Stroke.covering? (.make g theme) o)) with
  | none =>
      rw [strongest] at greatest
      exact greatest
  | some k =>
      rw [strongest] at greatest
      obtain ⟨n, c, place, own, most⟩ := greatest
      obtain ⟨inside, named, -⟩ := Stroke.covering?_eq_some query own
      exact ⟨n, c, place, inside, named, most⟩

/-! ### Classification -/

/-- No two neighbours of a classified span are one run. -/
theorem Rules.isChain_classify (rules : Rules) (captures : List Capture) (s : Span) :
    (rules.classify captures s).IsChain fun a b => a.joins b = false := by
  unfold classify
  split
  · exact List.IsChain.nil
  · split
    · exact List.IsChain.singleton _
    · exact StyleRun.isChain_coalesce _

/-- Classification paints: its runs are the coarsest tiling of the span in which each byte has the
category that the plain painter gives it. A grammar without a query leaves the span unclassified. -/
theorem Rules.classify_paints (g : Grammar) (theme : Theme) (captures : List Capture) {s : Span}
    (nonempty : s.start < s.stop) :
    let runs := (Rules.make g theme).classify captures s
    StyleRun.Coarsest s runs ∧
      match g.query with
      | none => runs = [.unclassified s]
      | some q => ∀ r ∈ runs, ∀ o ∈ r.span, Painted g q theme captures o r.category := by
  intro runs
  have tiles : checkTiling s.start s.stop runs = .ok () := checkTiling_classify nonempty
  refine ⟨StyleRun.coarsest_of_checkTiling tiles nonempty (isChain_classify _ _ _), ?_⟩
  cases query : g.query with
  | none =>
      have plain : (Rules.make g theme).grammar.query = none := query
      simp only [runs, classify, plain]
      rw [if_neg (by simp only [Span.isEmpty, decide_eq_true_eq]; omega)]
  | some q =>
      intro r hr o mem
      obtain ⟨starts, stops⟩ := (StyleIndex.bounds_of_checkTiling tiles).2 r hr
      have inside : o ∈ s :=
        ⟨Nat.le_trans starts mem.1, Nat.lt_of_lt_of_le mem.2 stops⟩
      rw [← StyleRun.categoryAt_of_mem (StyleRun.ascending_of_checkTiling tiles) hr mem,
        categoryAt_classify inside]
      exact painted_categoryAt query captures

/-- A number in a call in a comment: the smaller node wins, of two captures of one node the later
pattern wins although it arrives first, and a capture that the theme does not name does not count. -/
theorem Rules.classify_paints_nested :
    let g : Grammar := ⟨"calls", 14, some ⟨["call", "number", "none", "comment"], [[], [], []]⟩, []⟩
    let theme : Theme := ⟨[("call", 1), ("comment", 3), ("number", 2)]⟩
    let captures : List Capture :=
      [⟨⟨0, 6⟩, 1, 1, 3⟩, ⟨⟨0, 6⟩, 1, 0, 0⟩, ⟨⟨2, 4⟩, 2, 0, 1⟩, ⟨⟨3, 4⟩, 3, 0, 2⟩]
    let runs := (Rules.make g theme).classify captures ⟨1, 9⟩
    runs = [⟨⟨1, 2⟩, .styled 3⟩, ⟨⟨2, 4⟩, .styled 2⟩, ⟨⟨4, 6⟩, .styled 3⟩,
        ⟨⟨6, 9⟩, .unclassified⟩] ∧
      StyleRun.Coarsest ⟨1, 9⟩ runs ∧
      ∀ r ∈ runs, ∀ o ∈ r.span,
        Painted g ⟨["call", "number", "none", "comment"], [[], [], []]⟩ theme captures o
          r.category := by
  refine ⟨by cbv, ?_⟩
  exact classify_paints _ _ _ (s := ⟨1, 9⟩) (by decide)

end Highlighting
