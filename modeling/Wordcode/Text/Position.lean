namespace Wordcode

/-- A stretch of text by the indices of its first and last character. -/
structure Position where
  first : Nat
  last : Nat
deriving DecidableEq, Repr, Inhabited

namespace Position

def point (i : Nat) : Position :=
  ⟨i, i⟩

def shift (n : Nat) (p : Position) : Position :=
  ⟨p.first + n, p.last + n⟩

def text (p : Position) : String :=
  s!"[{p.first}, {p.last}]"

end Position

def utf8Length (cs : List Char) : Nat :=
  cs.foldl (fun n c => n + c.utf8Size) 0

/-- Half-open range of UTF-8 bytes. -/
structure ByteRange where
  start : Nat
  stop : Nat
deriving DecidableEq, Repr, Inhabited

/-- The bytes of the characters at a position, which is cut off at the end of the text. -/
def byteRange (text : List Char) (p : Position) : ByteRange :=
  let start := utf8Length (text.take p.first)
  ⟨start, max start (utf8Length (text.take (p.last + 1)))⟩

end Wordcode
