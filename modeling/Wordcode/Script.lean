import Wordcode.Text.Digits

namespace Wordcode

inductive Term where
  | literal (raw : String)
  | reference (name : String)
  | call (name : String) (arguments : List Nat) (parameters : List Term)
deriving Repr, Inhabited

namespace Term

def argumentsText (arguments : List Nat) : String :=
  if arguments.isEmpty then "" else "<" ++ " ".intercalate (arguments.map decimal) ++ ">"

mutual

def text : Term → String
  | .literal raw => raw
  | .reference name => name
  | .call name arguments parameters =>
    name ++ argumentsText arguments ++ "(" ++ " ".intercalate (texts [] parameters) ++ ")"

def texts (done : List String) : List Term → List String
  | [] => done.reverse
  | t :: rest => texts (t.text :: done) rest

end

end Term

structure Clause where
  names : List String
  terms : List Term
deriving Repr

def Clause.text (c : Clause) : String :=
  " ".intercalate c.names ++ ": " ++ " ".intercalate (Term.texts [] c.terms)

abbrev Script := List (List Clause)

namespace Script

def sourceText (clauses : List Clause) : String :=
  ", ".intercalate (clauses.map Clause.text) ++ ";"

/-- One source a line. -/
def text (script : Script) : String :=
  "\n".intercalate (script.map sourceText)

end Script

end Wordcode
