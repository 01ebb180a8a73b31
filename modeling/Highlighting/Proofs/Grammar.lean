import Highlighting.Grammar.Registry
import Highlighting.Proofs.Naming

/-!
What a registry finds, and how paths and priorities are read.

A registry has one configuration for each name, the one that was registered last, and keeps them in
order of names. So the language of an extension, the first that claims it, is the least one by name.
The extension of a path stands behind the last dot of its last part (`FileExtension.ofPart?`), and
the priority that a pattern sets is read back from its decimal form (`Priority.read?`).
-/

namespace Highlighting

/-- The configuration lists the extension, up to leading dots and the case of ASCII letters. -/
def GrammarConfig.Claims (c : GrammarConfig) (extension : String) : Prop :=
  ∃ e ∈ c.extensions, e.toLower = (bareExtension extension).toLower

namespace Registry

variable {r : Registry}

theorem get?_register (r : Registry) (c : GrammarConfig) (name : String) :
    (r.register c).get? name = if c.name = name then some c else r.get? name :=
  find?_insertByName c r.configs name

theorem ofList_concat (front : List GrammarConfig) (c : GrammarConfig) :
    ofList (front ++ [c]) = (ofList front).register c :=
  List.foldl_append

theorem ordered_ofList (configs : List GrammarConfig) :
    Ordered GrammarConfig.name (ofList configs).configs := by
  induction configs using List.reverseRecOn with
  | nil => exact List.Pairwise.nil
  | append_singleton front c ih =>
      rw [ofList_concat]
      exact ih.insertByName c

/-- A registry has for each name the configuration that was registered under it last. -/
theorem get?_ofList (configs : List GrammarConfig) (name : String) :
    (ofList configs).get? name = configs.reverse.find? (·.name = name) := by
  induction configs using List.reverseRecOn with
  | nil => rfl
  | append_singleton front c ih =>
      rw [ofList_concat, get?_register, ih, List.reverse_concat, List.find?_cons]
      by_cases same : c.name = name <;> simp [same]

/-- The language of an extension is the least by name of those that claim it. -/
theorem languageForExtension?_eq_some_iff (ordered : Ordered GrammarConfig.name r.configs)
    {extension name : String} :
    r.languageForExtension? extension = some name ↔
      ∃ c ∈ r.configs, c.Claims extension ∧ c.name = name ∧
        ∀ d ∈ r.configs, d.Claims extension → name ≤ d.name := by
  have claims : ∀ c : GrammarConfig,
      (c.extensions.any fun e => e.toLower = (bareExtension extension).toLower) = true ↔
        c.Claims extension := by
    intro c
    simp [GrammarConfig.Claims]
  -- The first one that claims the extension is the least, since the names ascend.
  have first : ∀ c, r.configs.find? (fun c => c.extensions.any fun e =>
      e.toLower = (bareExtension extension).toLower) = some c →
      c ∈ r.configs ∧ c.Claims extension ∧
        ∀ d ∈ r.configs, d.Claims extension → c.name ≤ d.name := by
    intro c found
    obtain ⟨own, before, behind, eq, passed⟩ := List.find?_eq_some_iff_append.mp found
    rw [Ordered, eq, List.pairwise_append, List.pairwise_cons] at ordered
    refine ⟨List.mem_of_find?_eq_some found, (claims c).mp own, fun d mem claimed => ?_⟩
    rw [eq, List.mem_append, List.mem_cons] at mem
    rcases mem with early | rfl | late
    · exact absurd ((claims d).mpr claimed) (by simpa using passed d early)
    · exact String.le_refl _
    · exact String.not_lt.mp (String.lt_asymm (ordered.2.1.1 d late))
  unfold languageForExtension?
  dsimp only
  constructor
  · intro found
    obtain ⟨c, here, rfl⟩ := Option.map_eq_some_iff.mp found
    obtain ⟨mem, claimed, least⟩ := first c here
    exact ⟨c, mem, claimed, rfl, least⟩
  · rintro ⟨c, mem, claimed, rfl, least⟩
    cases found : r.configs.find? fun c => c.extensions.any fun e =>
        e.toLower = (bareExtension extension).toLower with
    | none => exact absurd ((claims c).mpr claimed) (List.find?_eq_none.mp found c mem)
    | some b =>
        obtain ⟨mem', claimed', least'⟩ := first b found
        exact congrArg some (String.le_antisymm (least' c mem claimed) (least b mem' claimed'))

end Registry

namespace FileExtension

variable {part front extension : List Char}

/-- From its end on, a part is read up to its last dot. -/
theorem takeWhile_reverse (undotted : '.' ∉ extension) (further : List Char) :
    (extension.reverse ++ further).takeWhile (· ≠ '.') =
      extension.reverse ++ further.takeWhile (· ≠ '.') := by
  apply List.takeWhile_append_of_pos
  intro c mem
  have other : c ≠ '.' := fun dot => undotted (List.mem_reverse.mp (dot ▸ mem))
  simpa using other

theorem splitAtLastDot?_append (front : List Char) (undotted : '.' ∉ extension) :
    splitAtLastDot? (front ++ '.' :: extension) = some (front, extension) := by
  have behind : (front ++ '.' :: extension).reverse.takeWhile (· ≠ '.') = extension.reverse := by
    rw [List.reverse_append, List.reverse_cons, List.append_assoc, takeWhile_reverse undotted]
    simp
  unfold splitAtLastDot?
  dsimp only
  rw [behind]
  simp

theorem splitAtLastDot?_eq_none (undotted : '.' ∉ part) : splitAtLastDot? part = none := by
  have all : part.reverse.takeWhile (· ≠ '.') = part.reverse := by
    simpa using takeWhile_reverse undotted []
  unfold splitAtLastDot?
  dsimp only
  rw [all, List.drop_length]

theorem splitAtLastDot?_eq_some_iff :
    splitAtLastDot? part = some (front, extension) ↔
      part = front ++ '.' :: extension ∧ '.' ∉ extension := by
  constructor
  · intro split
    by_cases dotted : '.' ∈ part
    · obtain ⟨behind, before, eq, undotted⟩ :=
        List.eq_append_cons_of_mem (List.mem_reverse.mpr dotted)
      have eq : part = before.reverse ++ '.' :: behind.reverse := by
        simpa using congrArg List.reverse eq
      have undotted : '.' ∉ behind.reverse := fun mem => undotted (List.mem_reverse.mp mem)
      rw [eq, splitAtLastDot?_append _ undotted] at split
      cases split
      exact ⟨eq, undotted⟩
    · rw [splitAtLastDot?_eq_none dotted] at split
      cases split
  · rintro ⟨rfl, undotted⟩
    exact splitAtLastDot?_append front undotted

/-- The extension of a part stands behind its last dot, which is not the first character. -/
theorem ofPart?_eq_some_iff :
    ofPart? part = some extension ↔
      part ≠ ['.', '.'] ∧ ∃ front, front ≠ [] ∧ part = front ++ '.' :: extension ∧
        '.' ∉ extension := by
  unfold ofPart?
  by_cases parent : part = ['.', '.']
  · simp [parent]
  · rw [if_neg parent]
    constructor
    · intro found
      split at found
      · rename_i first rest behind split
        cases found
        exact ⟨parent, first :: rest, nofun, splitAtLastDot?_eq_some_iff.mp split⟩
      · cases found
    · rintro ⟨-, front, nonempty, eq, undotted⟩
      rw [splitAtLastDot?_eq_some_iff.mpr ⟨eq, undotted⟩]
      cases front with
      | nil => exact absurd rfl nonempty
      | cons first rest => rfl

/-- The extension of a path is that of its last part that counts. -/
theorem ofPath?_eq_some_iff {path extension : String} :
    ofPath? path = some extension ↔
      ∃ part, (parts path).getLast? = some part ∧ ofPart? part = some extension.toList := by
  unfold ofPath?
  cases (parts path).getLast? with
  | none => simp
  | some part =>
      cases found : ofPart? part with
      | none => simp [found]
      | some behind => simp [found, ← String.toList_inj]

example : ofPath? "a/b.tar.gz/" = some "gz" := by decide
example : ofPath? ".profile" = none := by decide

end FileExtension

namespace Priority

theorem ofDigits?_toDigits (n : Nat) : ofDigits? (Nat.toDigits 10 n) = some n := by
  have digits : (Nat.toDigits 10 n).all Char.isDigit = true := by
    rw [List.all_eq_true]
    exact fun c mem => Nat.isDigit_of_mem_toDigits (by decide) (by decide) mem
  unfold ofDigits?
  rw [if_pos ⟨Nat.toDigits_ne_nil, digits⟩]
  exact congrArg some (Nat.ofDigitChars_toDigits (by decide) (by decide))

theorem dropWhile_blank {front behind : List Char} (blank : ∀ c ∈ front, isBlank c = true)
    (dark : ∀ c ∈ behind.head?, isBlank c = false) :
    (front ++ behind).dropWhile isBlank = behind := by
  rw [List.dropWhile_append_of_pos blank]
  cases behind with
  | nil => rfl
  | cons c rest => rw [List.dropWhile_cons, dark c rfl, if_neg Bool.false_ne_true]

/-- Blanks around what has none at its ends are trimmed off. -/
theorem trimBlank_append {front middle back : List Char}
    (blank : ∀ c ∈ front ++ back, isBlank c = true) (nonempty : middle ≠ [])
    (dark : ∀ c ∈ middle, isBlank c = false) : trimBlank (front ++ middle ++ back) = middle := by
  obtain ⟨before, behind⟩ := List.forall_mem_append.mp blank
  have first : (front ++ (middle ++ back)).dropWhile isBlank = middle ++ back := by
    obtain ⟨c, rest, rfl⟩ := List.exists_cons_of_ne_nil nonempty
    refine dropWhile_blank before fun d head => ?_
    cases head
    exact dark c List.mem_cons_self
  have last : (back.reverse ++ middle.reverse).dropWhile isBlank = middle.reverse := by
    refine dropWhile_blank (fun c mem => behind c (List.mem_reverse.mp mem)) fun c head => ?_
    exact dark c (List.mem_reverse.mp (List.mem_of_mem_head? head))
  rw [trimBlank, List.append_assoc, first, List.reverse_append, last, List.reverse_reverse]

theorem isBlank_of_isDigit {c : Char} (digit : c.isDigit = true) : isBlank c = false := by
  have range : 48 ≤ c.toNat ∧ c.toNat ≤ 57 := by
    simpa [Char.isDigit, UInt32.le_iff_toNat_le] using digit
  have apart : ∀ r ∈ blankRanges, r.2 < 48 ∨ 57 < r.1 := by decide
  rw [isBlank, List.any_eq_false]
  intro r mem
  have := apart r mem
  simp only [Bool.and_eq_true, decide_eq_true_eq]
  omega

/-- A number below 2^32 is read from its decimal form, with or without a plus sign and whatever
blanks stand around it. A larger one is not read. -/
theorem read?_decimal (n : Nat) {front back sign : List Char}
    (blank : ∀ c ∈ front ++ back, isBlank c = true) (signed : sign = [] ∨ sign = ['+']) :
    read? (.ofList (front ++ (sign ++ Nat.toDigits 10 n) ++ back)) =
      if n < Nat.pow 2 32 then some n else none := by
  have digit : ∀ c ∈ Nat.toDigits 10 n, c.isDigit = true := fun c mem =>
    Nat.isDigit_of_mem_toDigits (by decide) (by decide) mem
  have dark : ∀ c ∈ sign ++ Nat.toDigits 10 n, isBlank c = false := by
    intro c mem
    rcases List.mem_append.mp mem with front | behind
    · rcases signed with rfl | rfl
      · cases front
      · cases List.mem_singleton.mp front
        decide
    · exact isBlank_of_isDigit (digit c behind)
  have trimmed := trimBlank_append blank
    (List.append_ne_nil_of_right_ne_nil sign Nat.toDigits_ne_nil) dark
  have unsigned : read? (.ofList (front ++ (sign ++ Nat.toDigits 10 n) ++ back)) =
      (ofDigits? (Nat.toDigits 10 n)).filter (· < Nat.pow 2 32) := by
    unfold read?
    dsimp only
    rw [String.toList_ofList, trimmed]
    rcases signed with rfl | rfl
    · -- The first digit is no plus sign that could be taken off.
      cases digits : Nat.toDigits 10 n with
      | nil => rfl
      | cons c rest =>
          have own := digit c (digits ▸ List.mem_cons_self)
          rw [List.nil_append]
          split
          · rename_i plus
            cases plus
            cases own
          · rfl
    · rfl
  rw [unsigned, ofDigits?_toDigits, Option.filter_some]
  exact if_congr decide_eq_true_iff rfl rfl

example : read? " +7\t" = some 7 := by decide

end Priority

end Highlighting
