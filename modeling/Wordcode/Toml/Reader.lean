import Wordcode.Toml.Scalar
import Wordcode.Toml.Tree

namespace Wordcode.Toml

def isSpace (c : Char) : Bool :=
  c == ' ' || c == '\t'

def skipSpaces (cs : List Char) : List Char :=
  cs.dropWhile isSpace

def isPlain (c : Char) : Bool :=
  c == '\t' || (0x20 ≤ c.toNat && c.toNat != 0x7F)

def newline? : List Char → Option (List Char)
  | '\n' :: rest => some rest
  | '\r' :: '\n' :: rest => some rest
  | _ => none

def skipComment : List Char → List Char
  | '#' :: rest => rest.dropWhile isPlain
  | cs => cs

def endLine? (cs : List Char) : Option (List Char) :=
  match skipComment (skipSpaces cs) with
  | [] => some []
  | rest => newline? rest

def skipLines : Nat → List Char → List Char
  | 0, cs => cs
  | fuel + 1, cs =>
    let rest := skipComment (skipSpaces cs)
    match newline? rest with
    | some rest => skipLines fuel rest
    | none => rest

def hexDigits? (n value : Nat) (cs : List Char) : Option (Char × List Char) :=
  match n, cs with
  | 0, rest => if h : value.isValidChar then some (Char.ofNatAux value h, rest) else none
  | n + 1, c :: rest => do hexDigits? n (value * 16 + (← digitValue? c)) rest
  | _ + 1, [] => none

def escape? : List Char → Option (Char × List Char)
  | 'b' :: rest => some ('\x08', rest)
  | 't' :: rest => some ('\t', rest)
  | 'n' :: rest => some ('\n', rest)
  | 'f' :: rest => some ('\x0c', rest)
  | 'r' :: rest => some ('\r', rest)
  | '"' :: rest => some ('"', rest)
  | '\\' :: rest => some ('\\', rest)
  | 'u' :: rest => hexDigits? 4 0 rest
  | 'U' :: rest => hexDigits? 8 0 rest
  | _ => none

def basicString? : Nat → List Char → List Char → Option (String × List Char)
  | 0, _, _ => none
  | fuel + 1, done, cs =>
    match cs with
    | '"' :: rest => some (String.ofList done.reverse, rest)
    | '\\' :: rest =>
      match escape? rest with
      | some (c, rest) => basicString? fuel (c :: done) rest
      | none => none
    | c :: rest => if isPlain c then basicString? fuel (c :: done) rest else none
    | [] => none

def literalString? (done : List Char) : List Char → Option (String × List Char)
  | '\x27' :: rest => some (String.ofList done.reverse, rest)
  | c :: rest => if isPlain c then literalString? (c :: done) rest else none
  | [] => none

/-- Three quotes end a string of several lines; one or two more before them belong to it. -/
def closing? (quote : Char) (done cs : List Char) : Option (String × List Char) :=
  let quotes := (cs.takeWhile (· == quote)).length
  if 3 ≤ quotes then
    let inner := min (quotes - 3) 2
    some (String.ofList (List.replicate inner quote ++ done).reverse, cs.drop (inner + 3))
  else none

def skipBreaks : List Char → List Char
  | ' ' :: rest => skipBreaks rest
  | '\t' :: rest => skipBreaks rest
  | '\n' :: rest => skipBreaks rest
  | '\r' :: '\n' :: rest => skipBreaks rest
  | cs => cs

def joinLine? (cs : List Char) : Option (List Char) :=
  (newline? (skipSpaces cs)).map skipBreaks

def longString? (quote : Char) : Nat → List Char → List Char → Option (String × List Char)
  | 0, _, _ => none
  | fuel + 1, done, cs =>
    match closing? quote done cs with
    | some result => some result
    | none =>
      match newline? cs with
      | some rest => longString? quote fuel ('\n' :: done) rest
      | none =>
        match cs with
        | [] => none
        | c :: rest =>
          if c == '\\' && quote == '"' then
            match joinLine? rest with
            | some rest => longString? quote fuel done rest
            | none =>
              match escape? rest with
              | some (c, rest) => longString? quote fuel (c :: done) rest
              | none => none
          else if isPlain c then longString? quote fuel (c :: done) rest
          else none

/-- A line break right behind the opening quotes is left out. -/
def dropFirstBreak (cs : List Char) : List Char :=
  (newline? cs).getD cs

def string? (cs : List Char) : Option (String × List Char) :=
  match cs with
  | '"' :: '"' :: '"' :: rest => longString? '"' (cs.length + 1) [] (dropFirstBreak rest)
  | '"' :: rest => basicString? (cs.length + 1) [] rest
  | '\x27' :: '\x27' :: '\x27' :: rest =>
    longString? '\x27' (cs.length + 1) [] (dropFirstBreak rest)
  | '\x27' :: rest => literalString? [] rest
  | _ => none

def isKeyChar (c : Char) : Bool :=
  c.isAlphanum || c == '-' || c == '_'

def simpleKey? (cs : List Char) : Option (String × List Char) :=
  match cs with
  | '"' :: rest => basicString? (cs.length + 1) [] rest
  | '\x27' :: rest => literalString? [] rest
  | cs =>
    match cs.span isKeyChar with
    | ([], _) => none
    | (key, rest) => some (String.ofList key, rest)

def key? : Nat → List String → List Char → Option (List String × List Char)
  | 0, _, _ => none
  | fuel + 1, done, cs =>
    match simpleKey? (skipSpaces cs) with
    | none => none
    | some (k, rest) =>
      match skipSpaces rest with
      | '.' :: rest => key? fuel (k :: done) rest
      | rest => some ((k :: done).reverse, rest)

/-- Arrays and tables in values nest at most this deep, and keys have at most as many parts. -/
def maxDepth : Nat := 79

def path? (cs : List Char) : Option (List String × List Char) := do
  let (path, rest) ← key? (cs.length + 1) [] cs
  if maxDepth < path.length then none
  return (path, rest)

def isScalarChar (c : Char) : Bool :=
  c.isAlphanum || c == '+' || c == '-' || c == '_' || c == '.' || c == ':'

def scalar? (cs : List Char) : Option (Toml × List Char) :=
  let (word, rest) := cs.span isScalarChar
  if word == ['t', 'r', 'u', 'e'] then some (.bool true, rest)
  else if word == ['f', 'a', 'l', 's', 'e'] then some (.bool false, rest)
  else
    match integer? word with
    | some n => some (.integer n, rest)
    | none =>
      if isDate word then
        match rest with
        | ' ' :: more =>
          let (time, rest') := more.span isScalarChar
          some (.moment, if isTimeWithOffset time then rest' else rest)
        | rest => some (.moment, rest)
      else if isDateTime word then some (.moment, rest)
      else if isFloat word then some (.real, rest)
      else none

mutual

def value? (depth : Nat) : Nat → List Char → Option (Toml × List Char)
  | 0, _ => none
  | fuel + 1, cs =>
    match cs with
    | '[' :: rest =>
      if maxDepth ≤ depth then none else items? (depth + 1) fuel [] (skipLines rest.length rest)
    | '\x7b' :: rest =>
      if maxDepth ≤ depth then none
      else
        match skipSpaces rest with
        | '\x7d' :: rest => some (.table [], rest)
        | rest => pairs? (depth + 1) fuel [] rest
    | '"' :: _ => (string? cs).map fun (s, rest) => (.string s, rest)
    | '\x27' :: _ => (string? cs).map fun (s, rest) => (.string s, rest)
    | cs => scalar? cs

def items? (depth : Nat) : Nat → List Toml → List Char → Option (Toml × List Char)
  | 0, _, _ => none
  | fuel + 1, done, cs =>
    match cs with
    | ']' :: rest => some (.array done.reverse, rest)
    | cs =>
      match value? depth fuel cs with
      | none => none
      | some (v, rest) =>
        match skipLines rest.length rest with
        | ',' :: rest => items? depth fuel (v :: done) (skipLines rest.length rest)
        | ']' :: rest => some (.array (v :: done).reverse, rest)
        | _ => none

def pairs? (depth : Nat) : Nat → Fields → List Char → Option (Toml × List Char)
  | 0, _, _ => none
  | fuel + 1, done, cs =>
    match path? cs with
    | some (path, '=' :: rest) =>
      match value? depth fuel (skipSpaces rest) with
      | none => none
      | some (v, rest) =>
        match Fields.insert v (1 < path.length) false path done with
        | none => none
        | some done =>
          match skipSpaces rest with
          | ',' :: rest => pairs? depth fuel done rest
          | '\x7d' :: rest => some (.table (Tree.freezeFields done), rest)
          | _ => none
    | _ => none

end

/-- A document as far as it is read: its tables, and the way to the one that was opened last. -/
structure State where
  root : Fields := []
  current : List String := []

def keyValue? (s : State) (cs : List Char) : Option (State × List Char) := do
  match ← path? cs with
  | (path, '=' :: rest) =>
    let (v, rest) ← value? 0 (2 * rest.length + 2) (skipSpaces rest)
    let root ← s.root.descend (Fields.insert v (1 < path.length) false path) s.current
    return ({ s with root := root }, rest)
  | _ => none

def header? (s : State) (cs : List Char) : Option (State × List Char) := do
  match ← path? cs with
  | (path, ']' :: rest) =>
    return (⟨← s.root.openTable path.dropLast (← path.getLast?), path⟩, rest)
  | _ => none

def elementHeader? (s : State) (cs : List Char) : Option (State × List Char) := do
  match ← path? cs with
  | (path, ']' :: ']' :: rest) =>
    return (⟨← s.root.openElement path.dropLast (← path.getLast?), path⟩, rest)
  | _ => none

def line? (s : State) (cs : List Char) : Option (State × List Char) :=
  match cs with
  | '[' :: '[' :: rest => elementHeader? s rest
  | '[' :: rest => header? s rest
  | cs => keyValue? s cs

def lines? : Nat → State → List Char → Option Fields
  | 0, _, _ => none
  | fuel + 1, s, cs =>
    match skipLines cs.length cs with
    | [] => some s.root
    | cs =>
      match line? s cs with
      | none => none
      | some (s, rest) =>
        match endLine? rest with
        | none => none
        | some rest => lines? fuel s rest

def read? (text : List Char) : Option (List (String × Toml)) :=
  let cs := match text with
    | '\uFEFF' :: rest => rest
    | cs => cs
  (lines? (cs.length + 1) {} cs).map Tree.freezeFields

end Wordcode.Toml
