import Highlighting.Span

/-!
Text addressed by byte offsets.

A text is a sequence of characters. Its offsets count the bytes of its UTF-8 form, and it can be cut
only between characters: `Text.splitAt?` answers `none` for an offset inside one. So every text that
an edit produces is a sequence of whole characters again.
-/

namespace Highlighting

/-- The number of bytes of some characters. -/
def byteCount (cs : List Char) : Nat :=
  cs.foldr (fun c count => c.utf8Size + count) 0

theorem byteCount_append (cs ds : List Char) :
    byteCount (cs ++ ds) = byteCount cs + byteCount ds := by
  induction cs with
  | nil => exact (Nat.zero_add _).symm
  | cons c rest ih =>
      change c.utf8Size + byteCount (rest ++ ds) = c.utf8Size + byteCount rest + byteCount ds
      rw [ih, Nat.add_assoc]

structure Text where
  chars : List Char
  /-- The number of bytes. -/
  size : Nat
  size_eq : size = byteCount chars
deriving DecidableEq

namespace Text

def ofChars (cs : List Char) : Text :=
  ⟨cs, byteCount cs, rfl⟩

def empty : Text :=
  ofChars []

def ofString (s : String) : Text :=
  ofChars s.toList

def toString (t : Text) : String :=
  String.ofList t.chars

instance : Append Text where
  append t u :=
    ⟨t.chars ++ u.chars, t.size + u.size, by rw [byteCount_append, t.size_eq, u.size_eq]⟩

@[ext]
theorem ext {t u : Text} (h : t.chars = u.chars) : t = u := by
  cases t
  cases u
  simp_all

theorem chars_append (t u : Text) : (t ++ u).chars = t.chars ++ u.chars :=
  rfl

theorem size_append (t u : Text) : (t ++ u).size = t.size + u.size :=
  rfl

/-- The UTF-8 form. -/
def bytes (t : Text) : List UInt8 :=
  t.chars.flatMap String.utf8EncodeChar

def isEmpty (t : Text) : Bool :=
  t.chars.isEmpty

/-- Counts on from `count` the characters that fill exactly `offset` bytes. -/
def countChars? (count : Nat) : List Char → Nat → Option Nat
  | _, 0 => some count
  | [], _ + 1 => none
  | c :: cs, offset@(_ + 1) =>
    if c.utf8Size ≤ offset then countChars? (count + 1) cs (offset - c.utf8Size) else none

/-- The text before and after `offset`; `none` if `offset` is inside a character or past the end. -/
def splitAt? (t : Text) (offset : Nat) : Option (Text × Text) :=
  (countChars? 0 t.chars offset).map fun n => (ofChars (t.chars.take n), ofChars (t.chars.drop n))

/-- The offset lies between two characters or at an end of the text. -/
def isBoundary (t : Text) (offset : Nat) : Bool :=
  (countChars? 0 t.chars offset).isSome

/-- The text of `s` brought inside the text; `none` if it starts or ends inside a character. -/
def slice? (t : Text) (s : Span) : Option Text := do
  let s := s.clampTo t.size
  let (_, back) ← t.splitAt? s.start
  let (middle, _) ← back.splitAt? (s.stop - s.start)
  return middle

theorem bytes_append (t u : Text) : (t ++ u).bytes = t.bytes ++ u.bytes := by
  simp [bytes, chars_append]

theorem length_bytes (t : Text) : t.bytes.length = t.size := by
  rw [bytes, t.size_eq]
  induction t.chars with
  | nil => rfl
  | cons c rest ih =>
      rw [List.flatMap_cons, List.length_append, ih, String.length_utf8EncodeChar]
      rfl

end Text

end Highlighting
