import Wordcode.Document.Segment

namespace Wordcode

structure OperandText where
  /-- The index of `<`. -/
  start : Nat
  /-- The index behind `>`, or where it is missing. -/
  stop : Nat
  isClosed : Bool
  items : List Label
deriving DecidableEq, Repr

/-- A word on the right of a statement, with what directly follows it. -/
structure Word where
  name : String
  position : Position
  operand : Option OperandText := none
  /-- The index of `(`. -/
  paren : Option Nat := none
deriving DecidableEq, Repr

namespace Word

def isCall (w : Word) : Bool :=
  w.operand.isSome || w.paren.isSome

def stop (w : Word) : Nat :=
  match w.operand with
  | some t => t.stop
  | none => w.position.last + 1

end Word

inductive Token where
  | word (w : Word)
  | close (i : Nat)
  /-- A parenthesis without a word before it, which is skipped up to its partner. -/
  | group (i : Nat)
  /-- `<` without a word before it, which is skipped up to `>`. -/
  | operand (p : Position)
  | closeAngle (i : Nat)
  | comma (i : Nat)
  | illegal (c : Char) (i : Nat)
deriving DecidableEq, Repr

namespace Token

def isWordChar (c : Char) : Bool :=
  c.isAlphanum || c == '-' || c == '_' || c == '.'

/-- What the characters read last are part of. Names and items have their last character first. -/
inductive Mode where
  | between
  | word (start : Nat) (name : List Char)
  | operand (w : Word) (start : Nat) (item : List Char) (items : List Label)
  /-- Directly behind the operand text of a word. -/
  | applied (w : Word)
  | group (depth : Nat)
  | angle (start : Nat)
deriving Repr

def wordOf (start : Nat) (name : List Char) : Word :=
  { name := String.ofList name.reverse, position := ⟨start, start + name.length - 1⟩ }

def itemsAt (i : Nat) (item : List Char) (items : List Label) : List Label :=
  if item.isEmpty then items else Segment.label (i - item.length) item :: items

def withOperand (w : Word) (start i : Nat) (isClosed : Bool) (item : List Char)
    (items : List Label) : Word :=
  { w with
    operand := some {
      start := start
      stop := if isClosed then i + 1 else i
      isClosed := isClosed
      items := (itemsAt i item items).reverse } }

def first (i : Nat) (done : List Token) (c : Char) : Mode × List Token :=
  if isBlank c then (.between, done)
  else if c == '(' then (.group 1, .group i :: done)
  else if c == ')' then (.between, .close i :: done)
  else if c == '<' then (.angle i, done)
  else if c == '>' then (.between, .closeAngle i :: done)
  else if c == ',' then (.between, .comma i :: done)
  else if isWordChar c then (.word i [c], done)
  else (.between, .illegal c i :: done)

def endsOperand (c : Char) : Bool :=
  c == '(' || c == ')' || c == '<'

def Mode.step (mode : Mode) (i : Nat) (done : List Token) (c : Char) : Mode × List Token :=
  match mode with
  | .between => first i done c
  | .word start name =>
    if isWordChar c then (.word start (c :: name), done)
    else if c == '(' then (.between, .word { wordOf start name with paren := some i } :: done)
    else if c == '<' then (.operand (wordOf start name) i [] [], done)
    else first i (.word (wordOf start name) :: done) c
  | .operand w start item items =>
    if isBlank c then (.operand w start [] (itemsAt i item items), done)
    else if c == '>' then (.applied (withOperand w start i true item items), done)
    else if c == '(' then
      let w := withOperand w start i false item items
      (.between, .word { w with paren := some i } :: done)
    else if endsOperand c then first i (.word (withOperand w start i false item items) :: done) c
    else (.operand w start (c :: item) items, done)
  | .applied w =>
    if c == '(' then (.between, .word { w with paren := some i } :: done)
    else first i (.word w :: done) c
  | .group depth =>
    if c == '(' then (.group (depth + 1), done)
    else if c == ')' then (if depth ≤ 1 then .between else .group (depth - 1), done)
    else (.group depth, done)
  | .angle start =>
    if c == '>' then (.between, .operand ⟨start, i⟩ :: done) else (.angle start, done)

def Mode.finish (mode : Mode) (i : Nat) (done : List Token) : List Token :=
  match mode with
  | .between => done
  | .word start name => .word (wordOf start name) :: done
  | .operand w start item items => .word (withOperand w start i false item items) :: done
  | .applied w => .word w :: done
  | .group _ => done
  | .angle start => .operand ⟨start, i - 1⟩ :: done

/-- Goes on with the text from index `i`, where `done` holds the tokens before it from the last to
the first. -/
def scanFrom (i : Nat) (mode : Mode) (done : List Token) : List Char → List Token
  | [] => (mode.finish i done).reverse
  | c :: rest =>
    let (mode, done) := mode.step i done c
    scanFrom (i + 1) mode done rest

/-- The tokens of the right side of a statement. They depend neither on the opcodes nor on the
names in scope. -/
def scan (right : Segment) : List Token :=
  scanFrom right.start .between [] right.chars

end Token

end Wordcode
