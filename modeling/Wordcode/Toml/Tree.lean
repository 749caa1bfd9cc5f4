namespace Wordcode

/-- A TOML value. Of numbers with a fraction and of dates and times only the kind is kept. -/
inductive Toml where
  | string (s : String)
  | integer (n : Int)
  | bool (b : Bool)
  | real
  | moment
  | array (items : List Toml)
  | table (fields : List (String × Toml))
deriving Inhabited

namespace Toml

inductive Tree where
  | value (v : Toml)
  /-- A table is `implicit` until a header names it and `dotted` if it comes from a dotted key. -/
  | table (implicit dotted : Bool) (fields : List (String × Tree))
  /-- An array of tables, the last one first. -/
  | tables (elements : List (List (String × Tree)))
deriving Inhabited

abbrev Fields := List (String × Tree)

namespace Tree

mutual

def freeze : Tree → Toml
  | .value v => v
  | .table _ _ fields => .table (freezeFields fields)
  | .tables elements => .array (freezeTables [] elements)

def freezeFields : Fields → List (String × Toml)
  | [] => []
  | (k, t) :: rest => (k, t.freeze) :: freezeFields rest

def freezeTables (done : List Toml) : List Fields → List Toml
  | [] => done
  | fields :: rest => freezeTables (.table (freezeFields fields) :: done) rest

end

end Tree

namespace Fields

def set (fields : Fields) (key : String) (t : Tree) : Fields :=
  if fields.any (·.1 == key) then fields.map fun (k, old) => if k == key then (k, t) else (k, old)
  else fields ++ [(key, t)]

/-- Adds a value under a dotted key. `dotted` tells whether the fields are those of a table that a
dotted key made, as they are behind the first part of a dotted key and only there. -/
def insert (value : Toml) (nested dotted : Bool) : List String → Fields → Option Fields
  | [], _ => none
  | [key], fields =>
    if dotted != nested || (fields.lookup key).isSome then none
    else some (fields ++ [(key, .value value)])
  | key :: keys, fields =>
    match fields.lookup key with
    | none => do return fields ++ [(key, .table true true (← insert value true true keys []))]
    | some (.table true inner sub) => do
      return fields.set key (.table true inner (← insert value true inner keys sub))
    | some (.tables (last :: before)) => do
      return fields.set key (.tables ((← insert value true false keys last) :: before))
    | some _ => none

/-- Goes down to the table of a header, whose way there is made if it is missing. -/
def descend (f : Fields → Option Fields) : List String → Fields → Option Fields
  | [], fields => f fields
  | key :: keys, fields =>
    match fields.lookup key with
    | none => do return fields ++ [(key, .table true false (← descend f keys []))]
    | some (.table implicit dotted sub) => do
      return fields.set key (.table implicit dotted (← descend f keys sub))
    | some (.tables (last :: before)) => do
      return fields.set key (.tables ((← descend f keys last) :: before))
    | some _ => none

def openTable (path : List String) (key : String) (fields : Fields) : Option Fields :=
  fields.descend (fun fields =>
    match fields.lookup key with
    | none => some (fields ++ [(key, .table false false [])])
    | some (.table true false sub) => some (fields.set key (.table false false sub))
    | some _ => none) path

def openElement (path : List String) (key : String) (fields : Fields) : Option Fields :=
  fields.descend (fun fields =>
    match fields.lookup key with
    | none => some (fields ++ [(key, .tables [[]])])
    | some (.tables elements) => some (fields.set key (.tables ([] :: elements)))
    | some _ => none) path

end Fields

end Toml

end Wordcode
