namespace Wordcode

def isLower (c : Char) : Bool :=
  'a' ≤ c && c ≤ 'z'

/-- Whether a word is made of lower-case letters, digits and `-` and starts with a letter. -/
def isName (word : String) : Bool :=
  match word.toList with
  | [] => false
  | c :: rest => isLower c && rest.all fun c => isLower c || c.isDigit || c == '-'

def normalizeChar (c : Char) : Char :=
  if c == '_' then '-' else c.toLower

/-- The form under which opcodes are looked up: lower case, with `-` for `_`. -/
def normalize (word : String) : String :=
  String.ofList (word.toList.map normalizeChar)

end Wordcode
