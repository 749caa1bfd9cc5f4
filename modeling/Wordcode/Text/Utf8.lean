namespace Wordcode

/-- Goes on behind `done`, whose last character comes first. The next `skip` bytes belong to the
character before them. -/
def unitsFrom (skip : Nat) (done : List (Option Char)) : List UInt8 → List (Option Char)
  | [] => done.reverse
  | b :: rest =>
    match skip with
    | n + 1 => unitsFrom n done rest
    | 0 =>
      match ByteArray.utf8DecodeChar? ⟨((b :: rest).take 4).toArray⟩ 0 with
      | some c => unitsFrom (c.utf8Size - 1) (some c :: done) rest
      | none => unitsFrom 0 (none :: done) rest

/-- The characters of a text that need not be well-formed, with `none` for each byte that is part
of no character. -/
def units (bytes : List UInt8) : List (Option Char) :=
  unitsFrom 0 [] bytes

end Wordcode
