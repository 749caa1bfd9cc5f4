import Wordcode.Text.Blank
import Wordcode.Text.Digits

namespace Wordcode.Formula

inductive Lexeme where
  | number (digits : List Char)
  | name (letters : List Char)
  | symbol (c : Char)
deriving DecidableEq, Repr

structure Token where
  offset : Nat
  lexeme : Lexeme
deriving DecidableEq, Repr

def isNameStart (c : Char) : Bool :=
  c.isAlpha || c == '_'

def isNameChar (c : Char) : Bool :=
  c.isAlphanum || c == '_'

/-- A number or name that the next character may continue, its last character first. -/
inductive Pending where
  | none
  | number (start : Nat) (done : List Char)
  | name (start : Nat) (done : List Char)

def Pending.flush (done : List Token) : Pending → List Token
  | .none => done
  | .number start cs => ⟨start, .number cs.reverse⟩ :: done
  | .name start cs => ⟨start, .name cs.reverse⟩ :: done

def begin (offset : Nat) (done : List Token) (c : Char) : Pending × List Token :=
  if isBlank c then (.none, done)
  else if isDecimal c then (.number offset [c], done)
  else if isNameStart c then (.name offset [c], done)
  else (.none, ⟨offset, .symbol c⟩ :: done)

def Pending.step (pending : Pending) (offset : Nat) (done : List Token) (c : Char) :
    Pending × List Token :=
  match pending with
  | .number start cs =>
    if isDecimal c then (.number start (c :: cs), done)
    else begin offset (pending.flush done) c
  | .name start cs =>
    if isNameChar c then (.name start (c :: cs), done)
    else begin offset (pending.flush done) c
  | .none => begin offset done c

/-- The longest numbers and names and the single other characters of a text, without its blanks.
`done` holds the tokens before the text, the last one first. -/
def scan (offset : Nat) (pending : Pending) (done : List Token) : List Char → List Token
  | [] => (pending.flush done).reverse
  | c :: rest =>
    let (pending, done) := pending.step offset done c
    scan (offset + 1) pending done rest

def Lexeme.head : Lexeme → Char
  | .number (c :: _) => c
  | .name (c :: _) => c
  | .symbol c => c
  | _ => ' '

end Wordcode.Formula
