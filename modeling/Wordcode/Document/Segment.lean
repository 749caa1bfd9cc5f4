import Wordcode.Document.Basic
import Wordcode.Text.Blank

namespace Wordcode

/-- A stretch of text and the index of its first character. -/
structure Segment where
  start : Nat
  chars : List Char
deriving DecidableEq, Repr

namespace Segment

def stop (s : Segment) : Nat :=
  s.start + s.chars.length

/-- An empty segment has the position of the character behind it. -/
def position (s : Segment) : Position :=
  ⟨s.start, max (s.stop - 1) s.start⟩

def trim (s : Segment) : Segment :=
  let blanks := s.chars.takeWhile isBlank
  ⟨s.start + blanks.length, trimEnd (s.chars.dropWhile isBlank)⟩

def isEmpty (s : Segment) : Bool :=
  s.chars.isEmpty

/-- Cuts at each `mark` where the depth is zero. The first piece goes on from `start` with the
characters of `piece` before the index `i`, the last one first. -/
def splitFrom (nest : Nat → Char → Nat) (mark : Char) (i depth start : Nat) (piece : List Char)
    (done : List Segment) : List Char → List Segment
  | [] => (⟨start, piece.reverse⟩ :: done).reverse
  | c :: rest =>
    if c == mark && depth == 0 then
      splitFrom nest mark (i + 1) depth (i + 1) [] (⟨start, piece.reverse⟩ :: done) rest
    else splitFrom nest mark (i + 1) (nest depth c) start (c :: piece) done rest

def parens (depth : Nat) (c : Char) : Nat :=
  if c == '(' then depth + 1 else if c == ')' then depth - 1 else depth

/-- The pieces between marks outside of parentheses. -/
def splitOuter (mark : Char) (s : Segment) : List Segment :=
  splitFrom parens mark s.start 0 s.start [] [] s.chars

def split (mark : Char) (s : Segment) : List Segment :=
  splitFrom (fun depth _ => depth) mark s.start 0 s.start [] [] s.chars

def dropBlankLast (segments : List Segment) : List Segment :=
  match segments.getLast? with
  | some last => if last.trim.isEmpty then segments.dropLast else segments
  | none => segments

/-- The sources of a text, each of which a `;` ends. What follows the last `;` counts only if it
is not blank. -/
def sources (text : List Char) : List Segment :=
  dropBlankLast (split ';' ⟨0, text⟩)

def statements (source : Segment) : List Segment :=
  source.splitOuter ','

def sides (statement : Segment) : Except Problem (Segment × Segment) :=
  match statement.splitOuter ':' with
  | [left, right] => .ok (left, right)
  | [] | [_] =>
    .error ⟨.invalidStatement, "invalid statement, expected a ':'", statement.position⟩
  | _ =>
    .error ⟨.invalidStatement, "invalid statement, found more than one ':'", statement.position⟩

def label (start : Nat) (name : List Char) : Label :=
  ⟨String.ofList name.reverse, ⟨start, start + name.length - 1⟩⟩

/-- The runs of characters that are not blank. `name` is the open one, its last character first. -/
def labelsFrom (i : Nat) (name : List Char) (done : List Label) : List Char → List Label
  | [] => (if name.isEmpty then done else label (i - name.length) name :: done).reverse
  | c :: rest =>
    if isBlank c then
      labelsFrom (i + 1) [] (if name.isEmpty then done else label (i - name.length) name :: done)
        rest
    else labelsFrom (i + 1) (c :: name) done rest

def labels (left : Segment) : List Label :=
  labelsFrom left.start [] [] left.chars

def labelProblems (labels : List Label) : List Problem :=
  (labels.filter fun l => l.name != "_" && !isName l.name).map fun l =>
    .invalidWord l.name l.position

end Segment

end Wordcode
