/-!
File extensions.

A path is cut at slashes; empty parts and single dots do not count. The extension of the last part
is what stands behind its last dot, provided that something stands before that dot and the part is
not the pair of dots that leads to the parent.
-/

namespace Highlighting.FileExtension

/-- The parts of a path that count. -/
def parts (path : String) : List (List Char) :=
  (path.toList.splitOn '/').filter fun part => part ≠ [] ∧ part ≠ ['.']

/-- What stands before and behind the last dot. -/
def splitAtLastDot? (part : List Char) : Option (List Char × List Char) :=
  let behind := part.reverse.takeWhile (· ≠ '.')
  match part.reverse.drop behind.length with
  | [] => none
  | _ :: front => some (front.reverse, behind.reverse)

def ofPart? (part : List Char) : Option (List Char) :=
  if part = ['.', '.'] then none
  else match splitAtLastDot? part with
    | some (_ :: _, extension) => some extension
    | _ => none

def ofPath? (path : String) : Option String := do
  let part ← (parts path).getLast?
  let extension ← ofPart? part
  return String.ofList extension

end Highlighting.FileExtension
