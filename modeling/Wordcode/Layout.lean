namespace Wordcode.Layout

inductive Mode where
  /-- Before the first `:`. -/
  | head
  /-- Behind it, in parentheses of the given depth, and perhaps between `<` and `>`. -/
  | body (depth : Nat) (inArguments : Bool)

def newline (width : Nat) (done : List Char) : List Char :=
  List.replicate width ' ' ++ '\n' :: done

def indentFrom (indent : Nat) : Mode → List Char → List Char → List Char
  | _, done, [] => done.reverse
  | .head, done, c :: rest =>
    indentFrom indent (if c == ':' then .body 0 false else .head) (c :: done) rest
  | .body depth arguments, done, '(' :: ')' :: rest =>
    indentFrom indent (.body depth arguments) (')' :: '(' :: done) rest
  | .body depth arguments, done, c :: rest =>
    if c == ';' then indentFrom indent .head (c :: done) rest
    else if c == '<' then indentFrom indent (.body depth true) (c :: done) rest
    else if c == '>' then indentFrom indent (.body depth false) (c :: done) rest
    else if c == '(' then
      indentFrom indent (.body (depth + 1) arguments)
        (newline ((depth + 1) * indent) (c :: done)) rest
    else if c == ')' then
      indentFrom indent (.body (depth - 1) arguments)
        (c :: newline ((depth - 1) * indent) done) rest
    else if c == ' ' && 0 < depth && !arguments then
      indentFrom indent (.body depth arguments) (newline (depth * indent) done) rest
    else indentFrom indent (.body depth arguments) (c :: done) rest

/-- Puts parameters on lines of their own, indented by the depth of parentheses. -/
def pretty (indent : Nat) (text : List Char) : List Char :=
  indentFrom indent .head [] text

end Wordcode.Layout
