import Highlighting.Grammar.Basic
import Mathlib.Data.List.Induction

/-!
Which style a name has under a theme.

A name is styled by the longest of its keys that the theme has (`Theme.StyledBy`), and the theme has
for a key what the last insertion of that key said. `Theme.heads` lists the keys of a name from the
longest to the shortest, so the style is that of the first one which the theme has.

The walk along a name meets the keys in the opposite order and lets each one that is found take the
place of the one before. The plain search goes along `heads` as it stands: it looks the name up and
cuts it at its last dot, again and again. It can be cut no more often than it has dots, wherever they
stand, so the search ends (`Theme.search?`).
-/

namespace Highlighting

/-! ### Lists in order of names -/

section Ordered

variable {α : Type} {name : α → String} {x y : α} {l l' : List α}

/-- The names ascend, so no name occurs twice. -/
def Ordered (name : α → String) (l : List α) : Prop :=
  l.Pairwise fun a b => name a < name b

theorem mem_of_mem_insertByName (mem : y ∈ insertByName name x l) : y = x ∨ y ∈ l := by
  induction l with
  | nil => exact Or.inl (List.mem_singleton.mp mem)
  | cons z rest ih =>
      rw [insertByName] at mem
      split at mem
      · exact List.mem_cons.mp mem
      · split at mem
        · exact (List.mem_cons.mp mem).imp_right (List.mem_cons_of_mem z)
        · rcases List.mem_cons.mp mem with rfl | behind
          · exact Or.inr List.mem_cons_self
          · exact (ih behind).imp_right (List.mem_cons_of_mem z)

theorem Ordered.insertByName (ordered : Ordered name l) (x : α) :
    Ordered name (insertByName name x l) := by
  induction l with
  | nil => exact List.pairwise_singleton _ x
  | cons z rest ih =>
      obtain ⟨first, tail⟩ := List.pairwise_cons.mp ordered
      rw [Highlighting.insertByName]
      split
      · rename_i before
        refine List.pairwise_cons.mpr ⟨fun y mem => ?_, ordered⟩
        rcases List.mem_cons.mp mem with rfl | behind
        · exact before
        · exact String.lt_trans before (first y behind)
      · split
        · rename_i same
          exact List.pairwise_cons.mpr ⟨fun y behind => same ▸ first y behind, tail⟩
        · rename_i notBefore differs
          refine List.pairwise_cons.mpr ⟨fun y mem => ?_, ih tail⟩
          rcases mem_of_mem_insertByName mem with rfl | behind
          · refine String.not_le.mp fun le => differs ?_
            exact String.le_antisymm le (String.not_lt.mp notBefore)
          · exact first y behind

/-- The element of a name is the one that was put in last. -/
theorem find?_insertByName (x : α) (l : List α) (key : String) :
    (insertByName name x l).find? (name · = key) =
      if name x = key then some x else l.find? (name · = key) := by
  induction l with
  | nil => by_cases own : name x = key <;> simp [insertByName, own]
  | cons z rest ih =>
      rw [insertByName]
      by_cases before : name x < name z
      · grind
      · by_cases same : name x = name z
        · grind
        · grind

theorem Ordered.find?_eq_some_iff (ordered : Ordered name l) {key : String} :
    l.find? (name · = key) = some x ↔ x ∈ l ∧ name x = key := by
  induction l with
  | nil => simp
  | cons z rest ih =>
      obtain ⟨first, tail⟩ := List.pairwise_cons.mp ordered
      have ih := ih tail
      rw [List.find?_cons]
      by_cases same : name z = key
      · -- The names behind are later ones, so `z` is the only element of its name.
        have others : ∀ y ∈ rest, name y ≠ key := fun y hy eq =>
          String.lt_irrefl _ (same ▸ eq ▸ first y hy)
        grind
      · grind

theorem Ordered.nodup (ordered : Ordered name l) : l.Nodup := by
  refine ordered.imp fun {a b} before same => ?_
  rw [same] at before
  exact String.lt_irrefl _ before

/-- Lists in order of names that have the same elements are one list. -/
theorem Ordered.eq_of_mem_iff (ordered : Ordered name l) (ordered' : Ordered name l')
    (same : ∀ x, x ∈ l ↔ x ∈ l') : l = l' := by
  refine List.Perm.eq_of_pairwise (fun a b _ _ ab ba => absurd ab (String.lt_asymm ba))
    ordered ordered' ?_
  exact (List.perm_ext_iff_of_nodup ordered.nodup ordered'.nodup).mpr same

/-- Lists in order of names in which every name finds the same are one list. -/
theorem Ordered.eq_of_find?_eq (ordered : Ordered name l) (ordered' : Ordered name l')
    (same : ∀ key, l.find? (name · = key) = l'.find? (name · = key)) : l = l' := by
  refine ordered.eq_of_mem_iff ordered' fun x => ?_
  have found : l.find? (name · = name x) = some x ↔ x ∈ l ∧ name x = name x :=
    ordered.find?_eq_some_iff
  rw [same, ordered'.find?_eq_some_iff] at found
  simpa using found.symm

end Ordered

/-- The names of the captures. A grammar without a query has none. -/
def Grammar.captureNames (g : Grammar) : List String :=
  (g.query.map Query.captureNames).getD []

namespace Theme

/-- The name itself, or what stands before one of its dots. -/
def KeyOf (key name : String) : Prop :=
  key = name ∨ ∃ rest, name = key ++ "." ++ rest

/-- The style is that of the longest key of the name for which `styles` has one. -/
def StyledBy (styles : String → Option StyleId) (name : String) : Option StyleId → Prop
  | none => ∀ key, KeyOf key name → styles key = none
  | some style =>
    ∃ key, KeyOf key name ∧ styles key = some style ∧
      ∀ other, KeyOf other name → styles other ≠ none → other ≠ key → other.length < key.length

/-- The style that was inserted for the key last. -/
def lastStyle? (insertions : List (String × StyleId)) (key : String) : Option StyleId :=
  insertions.reverse.lookup key

/-! ### Insertions -/

theorem find?_entries (t : Theme) (key : String) :
    t.entries.find? (·.1 = key) = (t.get? key).map (key, ·) := by
  unfold get?
  induction t.entries with
  | nil => rfl
  | cons entry rest ih =>
      rw [List.find?_cons, List.lookup_cons, ih]
      by_cases same : entry.1 = key
      · simp [← same]
      · simp [same, beq_false_of_ne (Ne.symm same)]

theorem get?_insert (t : Theme) (name key : String) (style : StyleId) :
    (t.insert name style).get? key = if key = name then some style else t.get? key := by
  have found : ((t.insert name style).get? key).map (key, ·) =
      if name = key then some (name, style) else (t.get? key).map (key, ·) := by
    rw [← find?_entries, ← find?_entries]
    exact find?_insertByName (name, style) t.entries key
  by_cases same : key = name
  · simpa [same] using found
  · rw [if_neg (Ne.symm same)] at found
    rw [if_neg same]
    exact Option.map_injective (fun _ _ eq => (Prod.mk.inj eq).2) found

theorem ofList_concat (front : List (String × StyleId)) (entry : String × StyleId) :
    ofList (front ++ [entry]) = (ofList front).insert entry.1 entry.2 :=
  List.foldl_append

/-- A theme has for each key what its last insertion said. -/
theorem get?_ofList (insertions : List (String × StyleId)) (key : String) :
    (ofList insertions).get? key = lastStyle? insertions key := by
  induction insertions using List.reverseRecOn with
  | nil => rfl
  | append_singleton front entry ih =>
      rw [ofList_concat, get?_insert, ih]
      simp only [lastStyle?, List.reverse_concat]
      grind

theorem ordered_ofList (insertions : List (String × StyleId)) :
    Ordered Prod.fst (ofList insertions).entries := by
  induction insertions using List.reverseRecOn with
  | nil => exact List.Pairwise.nil
  | append_singleton front entry ih =>
      rw [ofList_concat]
      exact ih.insertByName entry

/-- Themes with ascending names that have the same styles are equal. -/
theorem eq_of_get?_eq {t u : Theme} (ordered : Ordered Prod.fst t.entries)
    (ordered' : Ordered Prod.fst u.entries) (same : ∀ key, t.get? key = u.get? key) : t = u := by
  have entries : t.entries = u.entries := ordered.eq_of_find?_eq ordered' fun key => by
    rw [find?_entries, find?_entries, same]
  cases t
  cases u
  exact congrArg mk entries

/-- Two ways of putting a theme together lead to one theme if the last insertions agree. -/
theorem ofList_eq_ofList_iff (insertions insertions' : List (String × StyleId)) :
    ofList insertions = ofList insertions' ↔
      ∀ key, lastStyle? insertions key = lastStyle? insertions' key := by
  simp only [← get?_ofList]
  exact ⟨fun eq _ => by rw [eq],
    eq_of_get?_eq (ordered_ofList insertions) (ordered_ofList insertions')⟩

/-! ### The keys of a name -/

/-- The keys of a name, the longest first. -/
def heads : List Char → List (List Char)
  | [] => [[]]
  | c :: rest => (heads rest).map (c :: ·) ++ if c = '.' then [[]] else []

theorem mem_heads {key name : List Char} :
    key ∈ heads name ↔ key = name ∨ ∃ rest, name = key ++ '.' :: rest := by
  induction name generalizing key with
  | nil => simp [heads]
  | cons c tail ih =>
      cases key with
      | nil => simp [heads]
      | cons d key =>
          have further : d :: key ∈ heads (c :: tail) ↔ c = d ∧ key ∈ heads tail := by
            simp [heads, and_comm]
          rw [further, ih]
          simp [eq_comm, and_or_left]

theorem keyOf_iff {key name : String} : KeyOf key name ↔ key.toList ∈ heads name.toList := by
  rw [mem_heads, KeyOf, String.toList_inj]
  refine or_congr Iff.rfl ⟨?_, ?_⟩
  · rintro ⟨rest, rfl⟩
    exact ⟨rest.toList, by simp⟩
  · rintro ⟨rest, same⟩
    exact ⟨.ofList rest, String.toList_inj.mp (by simp [same])⟩

theorem pairwise_heads (name : List Char) :
    (heads name).Pairwise fun a b => b.length < a.length := by
  induction name with
  | nil => simp [heads]
  | cons c tail ih =>
      rw [heads, List.pairwise_append, List.pairwise_map]
      refine ⟨ih.imp (by simp), ?_, ?_⟩
      · split <;> simp
      · split <;> simp

/-- The first of the keys that has a style is the longest. -/
theorem styledBy_findSome? (styles : String → Option StyleId) (name : String) :
    StyledBy styles name ((heads name.toList).findSome? fun key => styles (.ofList key)) := by
  cases found : (heads name.toList).findSome? fun key => styles (.ofList key) with
  | none =>
      intro key isKey
      simpa using List.findSome?_eq_none_iff.mp found key.toList (keyOf_iff.mp isKey)
  | some style =>
      obtain ⟨longer, key, shorter, heads_eq, known, unknown⟩ :=
        List.findSome?_eq_some_iff.mp found
      have falling := pairwise_heads name.toList
      rw [heads_eq, List.pairwise_append, List.pairwise_cons] at falling
      refine ⟨.ofList key, keyOf_iff.mpr (by simp [heads_eq]), known, ?_⟩
      intro other isKey known' differs
      rw [keyOf_iff, heads_eq, List.mem_append, List.mem_cons] at isKey
      rcases isKey with before | same | behind
      · exact absurd (unknown _ before) (by simpa using known')
      · exact absurd (String.toList_inj.mp (by simpa using same)) differs
      · rw [← String.length_toList, ← String.length_toList, String.toList_ofList]
        exact falling.2.1.1 _ behind

/-! ### The walk -/

theorem ending?_eq_lookup (live : List Candidate) : ending? live = live.lookup [] := by
  induction live with
  | nil => rfl
  | cons e rest ih =>
      obtain ⟨ahead, style⟩ := e
      cases ahead with
      | nil => rfl
      | cons d further => exact ih

theorem lookup_advance (c : Char) (live : List Candidate) (path : List Char) :
    (advance c live).lookup path = live.lookup (c :: path) := by
  induction live with
  | nil => rfl
  | cons e rest ih =>
      obtain ⟨ahead, style⟩ := e
      cases ahead with
      | nil => exact ih
      | cons d further =>
          by_cases same : c = d
          · simp [advance, same, List.lookup_cons] at ih ⊢
            rw [ih]
          · simpa [advance, same, beq_false_of_ne same, List.lookup_cons] using ih

/-- The walk ends with the style of the longest key that is among the candidates. -/
theorem walk_eq (live : List Candidate) (best : Option StyleId) (path : List Char) :
    walk live best path = ((heads path).findSome? (live.lookup ·)).or best := by
  induction path generalizing live best with
  | nil => simp [walk, heads, ending?_eq_lookup]
  | cons c rest ih =>
      have further : (heads rest).findSome? ((advance c live).lookup ·) =
          ((heads rest).map (c :: ·)).findSome? (live.lookup ·) := by
        simp only [List.findSome?_map, Function.comp_def, lookup_advance]
      -- The empty key is met first and is the last of the heads: any key found later is better.
      rw [walk, ih, further, heads, List.findSome?_append, Option.or_assoc]
      split <;> simp [ending?_eq_lookup]

theorem lookup_candidates (entries : List (String × StyleId)) (path : List Char) :
    (entries.map fun e => (e.1.toList, e.2)).lookup path = entries.lookup (.ofList path) := by
  induction entries with
  | nil => rfl
  | cons e rest ih =>
      have same : path = e.1.toList ↔ String.ofList path = e.1 := by
        rw [← String.toList_inj, String.toList_ofList]
      rw [List.map_cons, List.lookup_cons, List.lookup_cons, ih]
      simp [beq_eq_decide, same]

theorem resolve?_eq (t : Theme) (name : String) :
    t.resolve? name = (heads name.toList).findSome? fun key => t.get? (.ofList key) := by
  simp [resolve?, walk_eq, lookup_candidates, get?]

/-! ### The search -/

/-- What stands before the last dot. -/
def parent? : List Char → Option (List Char)
  | [] => none
  | c :: rest =>
    match parent? rest with
    | some head => some (c :: head)
    | none => if c = '.' then some [] else none

/-- Looks a name up and cuts it at its last dot, again and again, until the theme has what is left
or no dot is left. There is no answer if this takes more than `cuts` cuts. -/
def search? (t : Theme) (cuts : Nat) (path : List Char) : Option (Option StyleId) :=
  match t.get? (.ofList path), parent? path, cuts with
  | some style, _, _ => some (some style)
  | none, none, _ => some none
  | none, some _, 0 => none
  | none, some head, cuts + 1 => t.search? cuts head

/-- Behind the name itself stand the keys of what a cut leaves of it. -/
theorem heads_eq (path : List Char) :
    heads path = path :: ((parent? path).map heads).getD [] := by
  induction path with
  | nil => rfl
  | cons c rest ih =>
      rw [heads, ih, parent?]
      cases parent? rest with
      | none => split <;> simp [heads]
      | some head => simp [heads]

theorem length_heads (path : List Char) : (heads path).length = path.count '.' + 1 := by
  induction path with
  | nil => rfl
  | cons c rest ih =>
      rw [heads, List.length_append, List.length_map, ih, List.count_cons]
      split <;> simp_all

/-- The search looks up one key after another, and has to cut once for each key but the first. -/
theorem search?_eq (t : Theme) {cuts : Nat} {path : List Char}
    (enough : (heads path).length ≤ cuts + 1) :
    t.search? cuts path = some ((heads path).findSome? fun key => t.get? (.ofList key)) := by
  induction cuts generalizing path with
  | zero =>
      have only : parent? path = none := by
        rw [heads_eq] at enough
        cases cut : parent? path with
        | none => rfl
        | some head => simp [cut, length_heads] at enough
      rw [heads_eq]
      cases known : t.get? (.ofList path) <;> simp [search?, known, only]
  | succ cuts ih =>
      rw [heads_eq] at enough ⊢
      cases known : t.get? (.ofList path) with
      | some style => simp [search?, known]
      | none =>
          cases cut : parent? path with
          | none => simp [search?, known, cut]
          | some head =>
              have fewer : (heads head).length ≤ cuts + 1 := by simpa [cut] using enough
              simp [search?, known, cut, ih fewer]

end Theme

/-! ### Captures -/

theorem Rules.captureStyle?_eq (g : Grammar) (theme : Theme) (i : Nat) :
    (Rules.make g theme).captureStyle? i = g.captureNames[i]?.bind theme.resolve? := by
  cases query : g.query with
  | none => simp [captureStyle?, make, Grammar.captureNames, query]
  | some q => cases named : q.captureNames[i]? <;>
      simp [captureStyle?, make, Grammar.captureNames, query, named]

namespace Theme

/-- However a theme was put together, a name has the style of its longest key among the inserted
ones, as it was inserted last, and no style if none of its keys was inserted. The search comes to
this answer for every name, as soon as it may cut as often as the name has dots. A capture has the
style of its name, and there is no style behind the last capture. -/
theorem longest_key_styles (insertions : List (String × StyleId)) :
    let theme := ofList insertions
    (∀ key, theme.get? key = lastStyle? insertions key) ∧
      (∀ name,
        StyledBy (lastStyle? insertions) name (theme.resolve? name) ∧
          ∀ cuts, name.toList.count '.' ≤ cuts →
            theme.search? cuts name.toList = some (theme.resolve? name)) ∧
      ∀ g : Grammar,
        (∀ i (inside : i < g.captureNames.length),
          (Rules.make g theme).captureStyle? i = theme.resolve? g.captureNames[i]) ∧
        ∀ i, g.captureNames.length ≤ i → (Rules.make g theme).captureStyle? i = none := by
  intro theme
  refine ⟨get?_ofList insertions, fun name => ⟨?_, fun cuts enough => ?_⟩, fun g => ⟨?_, ?_⟩⟩
  · rw [resolve?_eq]
    simp only [theme, get?_ofList]
    exact styledBy_findSome? _ name
  · rw [resolve?_eq]
    exact search?_eq theme (by rw [length_heads]; omega)
  · intro i inside
    rw [Rules.captureStyle?_eq, List.getElem?_eq_getElem inside, Option.bind_some]
  · intro i past
    rw [Rules.captureStyle?_eq, List.getElem?_eq_none past, Option.bind_none]

/-- Two dots in a row leave a key that ends with a dot, and a dot in front leaves the empty key. A
name that only starts like a key is not styled by it. -/
example :
    let theme := ofList [("", 1), ("call", 2), ("call.", 3), ("call", 4)]
    theme.resolve? "call..x" = some 3 ∧ theme.resolve? "call.x" = some 4 ∧
      theme.resolve? ".x" = some 1 ∧ theme.resolve? "caller.x" = none := by
  decide

end Theme

end Highlighting
