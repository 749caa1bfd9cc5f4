import Wordcode.Document.Basic

namespace Wordcode

structure Stripped where
  /-- The characters, with blanks for those of comments. -/
  chars : List Char := []
  comments : List Comment := []
  problems : List Problem := []
deriving Repr

namespace Stripped

def push (c : Char) (s : Stripped) : Stripped :=
  { s with chars := c :: s.chars }

/-- Adds a comment that ends before `stop`, its characters given from the last to the first. -/
def comment (start stop : Nat) (text : List Char) (s : Stripped) : Stripped :=
  { s with comments := ⟨String.ofList text.reverse, ⟨start, stop - 1⟩⟩ :: s.comments }

def problem (p : Problem) (s : Stripped) : Stripped :=
  { s with problems := p :: s.problems }

def reverse (s : Stripped) : Stripped :=
  ⟨s.chars.reverse, s.comments.reverse, s.problems.reverse⟩

end Stripped

def strayEnd (i : Nat) : Problem :=
  ⟨.unexpectedToken, "unexpected end of comment '*/'", ⟨i, i + 1⟩⟩

def unterminated (start stop : Nat) : Problem :=
  ⟨.unexpectedEndOfComment, "unterminated comment", ⟨start, stop - 1⟩⟩

/-- The start of an open comment and its characters, the last one first. -/
abbrev OpenComment := Option (Nat × List Char)

/-- Goes on with the text from index `i`, where `done` holds what comes before from its end to its
start. -/
def stripFrom (i : Nat) : OpenComment → Stripped → List Char → Stripped
  | none, done, [] => done.reverse
  | none, done, '*' :: '/' :: rest =>
    stripFrom (i + 2) none (((done.push '*').push '/').problem (strayEnd i)) rest
  | none, done, '/' :: '*' :: rest =>
    stripFrom (i + 2) (some (i, ['*', '/'])) ((done.push ' ').push ' ') rest
  | none, done, c :: rest => stripFrom (i + 1) none (done.push c) rest
  | some (start, text), done, [] =>
    ((done.comment start i text).problem (unterminated start i)).reverse
  | some (start, text), done, '*' :: '/' :: rest =>
    stripFrom (i + 2) none
      (((done.push ' ').push ' ').comment start (i + 2) ('/' :: '*' :: text)) rest
  | some (start, text), done, c :: rest =>
    stripFrom (i + 1) (some (start, c :: text)) (done.push ' ') rest

/-- Blanks out everything from `/*` to `*/`. -/
def stripComments (text : List Char) : Stripped :=
  stripFrom 0 none {} text

end Wordcode
