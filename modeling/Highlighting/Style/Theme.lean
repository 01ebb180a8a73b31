import Highlighting.Style

/-!
Themes: which style a capture has.

A theme maps names to styles. A capture name is a dotted path, and a capture that the theme does not
name has the style of the longest path before one of its dots that the theme does name. It is found
in one walk along the capture name, which keeps the entries whose names agree with it so far.
-/

namespace Highlighting

/-- Puts an element in its place in a list with ascending names, instead of the one of its name. -/
def insertByName {α : Type} (name : α → String) (x : α) : List α → List α
  | [] => [x]
  | y :: rest =>
    if name x < name y then x :: y :: rest
    else if name x = name y then x :: rest
    else y :: insertByName name x rest

/-- Entries with ascending names (`Ordered`), so that themes with the same styles are equal. -/
structure Theme where
  entries : List (String × StyleId)
deriving DecidableEq

namespace Theme

def empty : Theme :=
  ⟨[]⟩

def isEmpty (t : Theme) : Bool :=
  t.entries.isEmpty

def size (t : Theme) : Nat :=
  t.entries.length

/-- The style of exactly this name. -/
def get? (t : Theme) (name : String) : Option StyleId :=
  t.entries.lookup name

/-- Names a style, in place of the one named so before. -/
def insert (t : Theme) (name : String) (style : StyleId) : Theme :=
  ⟨insertByName Prod.fst (name, style) t.entries⟩

def ofList (entries : List (String × StyleId)) : Theme :=
  entries.foldl (fun t entry => t.insert entry.1 entry.2) empty

/-- An entry with the part of its name that is still ahead. -/
abbrev Candidate := List Char × StyleId

/-- The style of the candidate whose name ends here. -/
def ending? (live : List Candidate) : Option StyleId :=
  (live.find? fun e => e.1.isEmpty).map Prod.snd

/-- The candidates that go on with `c`, one character further. -/
def advance (c : Char) (live : List Candidate) : List Candidate :=
  live.filterMap fun
    | ([], _) => none
    | (d :: rest, style) => if c = d then some (rest, style) else none

/-- Walks along a name. Where a path ends, at a dot or at the end of the name, a candidate whose
name ends there too is better than `best`, the one found before. -/
def walk (live : List Candidate) (best : Option StyleId) : List Char → Option StyleId
  | [] => ending? live <|> best
  | c :: rest => walk (advance c live) (if c = '.' then ending? live <|> best else best) rest

/-- The style of a capture. -/
def resolve? (t : Theme) (capture : String) : Option StyleId :=
  walk (t.entries.map fun e => (e.1.toList, e.2)) none capture.toList

end Theme

end Highlighting
