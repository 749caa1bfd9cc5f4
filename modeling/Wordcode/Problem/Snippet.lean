import Wordcode.Problem.Basic
import Wordcode.Text.Blank
import Wordcode.Text.Digits

namespace Wordcode

/-- A line and a column, both counted from zero. -/
structure Place where
  line : Nat
  column : Nat
deriving DecidableEq, Repr

namespace Snippet

def placeOf (text : List Char) (i : Nat) : Place :=
  let before := text.take i
  ⟨before.count '\n', (before.reverse.takeWhile (· != '\n')).length⟩

/-- The lines of a text without their line breaks, behind those of `done`, the last one first, and
the open one, its last character first. -/
def linesFrom (line : List Char) (done : List (List Char)) : List Char → List (List Char)
  | [] => (line.reverse :: done).reverse
  | c :: rest =>
    if c == '\n' then linesFrom [] (line.reverse :: done) rest else linesFrom (c :: line) done rest

def linesOf (text : List Char) : Array (List Char) :=
  (linesFrom [] [] text).toArray

def blanks (n : Nat) : String :=
  String.ofList (List.replicate n ' ')

def bars (n : Nat) : String :=
  String.ofList (List.replicate n '─')

structure View where
  lines : Array (List Char)
  first : Place
  stop : Place
  label : String

namespace View

def line (v : View) (i : Nat) : List Char :=
  v.lines.getD i []

def width (v : View) : Nat :=
  (decimal (v.stop.line + 1)).length

def margin (v : View) : String :=
  blanks v.width

def number (v : View) (i : Nat) : String :=
  let n := decimal (i + 1)
  blanks (v.width - n.length) ++ n

def single (v : View) : List String :=
  [v.margin ++ " │",
    v.number v.first.line ++ " │ " ++ String.ofList (v.line v.first.line),
    v.margin ++ " │ " ++ blanks v.first.column ++
      String.ofList (List.replicate (max 1 (v.stop.column - v.first.column)) '^') ++ " " ++ v.label]

/-- The first of several lines. Its mark stands below the line, unless only blanks are before the
stretch. -/
def top (v : View) : List String :=
  let line := v.line v.first.line
  let text := String.ofList line
  if (line.takeWhile isBlank).length < v.first.column then
    [v.number v.first.line ++ " │   " ++ text,
      v.margin ++ " │ ╭" ++ bars (min (v.first.column + 1) line.length) ++ "^"]
  else [v.number v.first.line ++ " │ ╭ " ++ text]

def middle (v : View) (i : Nat) : String :=
  v.number i ++ " │ │ " ++ String.ofList (v.line i)

/-- The lines between the first and the last: three behind the first, one before the last, and a
mark for two or more others. -/
def between (v : View) : List String :=
  let f := v.first.line
  let l := v.stop.line
  if l ≤ f + 6 then (List.range' (f + 1) (l - f - 1)).map v.middle
  else
    (List.range' (f + 1) 3).map v.middle ++ [v.margin ++ " · │"] ++ [v.middle (l - 1)]

def bottom (v : View) : List String :=
  [v.middle v.stop.line, v.margin ++ " │ ╰" ++ bars v.stop.column ++ "^ " ++ v.label]

def multiple (v : View) : List String :=
  [v.margin ++ " │  "] ++ v.top ++ v.between ++ v.bottom

def body (v : View) : List String :=
  if v.first.line = v.stop.line then v.single else v.multiple

end View

/-- A problem with the text it is about. The text is taken to have characters of one column
each. -/
def ofProblem (name : String) (text : List Char) (p : Problem) : List String :=
  let first := min p.position.first text.length
  let stop := max first (min (p.position.last + 1) text.length)
  let v : View := {
    lines := linesOf text
    first := placeOf text first
    stop := placeOf text stop
    label := p.code.category.label }
  [s!"error[{p.code.number}]: " ++ p.message,
    v.margin ++ " ┌─ " ++ name ++ s!":{v.first.line + 1}:{v.first.column + 1}"] ++ v.body ++ [""]

end Snippet

def renderProblems (name : String) (text : List Char) (problems : List Problem) : String :=
  problems.foldl (fun out p =>
    (Snippet.ofProblem name text p).foldl (fun out line => out ++ line ++ "\n") out) ""

end Wordcode
