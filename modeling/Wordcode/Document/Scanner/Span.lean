import Wordcode.Document.Comment
import Wordcode.Document.Scanner.Basic
import Wordcode.Document.Segment

namespace Wordcode

def commentStop (text : Array Char) (i : Nat) : Checked (Nat × List Problem) := do
  let s : Scanner := ⟨text, text.size - 1⟩
  match ← s.findEnd (i + 2) with
  | some j => return (j + 2, [])
  | none => return (text.size, [unterminated i ((← Checked.sub text.size 1) + 1)])

def blankOut (i : Nat) : Nat → Array Char → Array Char
  | 0, text => text
  | n + 1, text => blankOut (i + 1) n (text.setIfInBounds i ' ')

namespace Scanner

/-- Blanks out comments from the index `i` on. The comments and problems before it are given from
the last to the first. -/
def stripFrom (s : Scanner) (i : Nat) (comments : List Comment) (problems : List Problem) :
    Checked Stripped := do
  if i < s.limit then
    let c ← s.get i
    if c == '*' && (← s.stands '/' (i + 1)) then
      s |>.stripFrom (i + 2) comments (strayEnd i :: problems)
    else if c == '/' && (← s.stands '*' (i + 1)) then
      let (stop, missing) ← commentStop s.text i
      let body ← Checked.slice s.text i stop
      let last ← Checked.sub stop 1
      { s with text := blankOut i (stop - i) s.text } |>.stripFrom stop
        (⟨String.ofList body, ⟨i, last⟩⟩ :: comments) (missing ++ problems)
    else s |>.stripFrom (i + 1) comments problems
  else return ⟨s.text.toList, comments.reverse, problems.reverse⟩
partial_fixpoint

def stripComments (text : Array Char) : Checked Stripped :=
  stripFrom ⟨text, text.size⟩ 0 [] []

end Scanner

/-- A stretch of a text from the index `start` up to the index `stop`. -/
structure Span where
  start : Nat
  stop : Nat
deriving Repr

namespace Span

def position (s : Span) : Position :=
  ⟨s.start, max (s.stop - 1) s.start⟩

def isEmpty (s : Span) : Bool :=
  s.stop ≤ s.start

def cut (s : Span) : List Nat → List Span
  | [] => [s]
  | i :: rest => ⟨s.start, i⟩ :: cut ⟨i + 1, s.stop⟩ rest

variable (text : Array Char)

def scanner (s : Span) : Scanner :=
  ⟨text, s.stop⟩

def trim (s : Span) : Checked Span := do
  let start ← (s.scanner text).skip isBlank s.start
  return ⟨start, ← (s.scanner text).skipBack start s.stop⟩

def marks (mark : Char) (s : Span) : Checked (List Nat) :=
  (s.scanner text).marksFrom Segment.parens mark s.start 0 []

def sources : Checked (List Span) := do
  let whole : Span := ⟨0, text.size⟩
  let pieces := whole.cut (← (whole.scanner text).marksFrom (fun depth _ => depth) ';' 0 0 [])
  match pieces.getLast? with
  | some last => if (← last.trim text).isEmpty then return pieces.dropLast else return pieces
  | none => return pieces

def statements (source : Span) : Checked (List Span) :=
  return source.cut (← source.marks text ',')

def sides (statement : Span) : Checked (Except Problem (Span × Span)) := do
  match ← statement.marks text ':' with
  | [colon] => return .ok (⟨statement.start, colon⟩, ⟨colon + 1, statement.stop⟩)
  | [] =>
    return .error ⟨.invalidStatement, "invalid statement, expected a ':'", statement.position⟩
  | _ =>
    return .error
      ⟨.invalidStatement, "invalid statement, found more than one ':'", statement.position⟩

def labels (left : Span) : Checked (List Label) :=
  (left.scanner text).labelsFrom left.start []

end Span

end Wordcode
