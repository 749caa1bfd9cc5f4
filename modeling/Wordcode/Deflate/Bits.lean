namespace Wordcode.Deflate

def byteBits (b : UInt8) : List Bool :=
  (List.range 8).map (b.toNat.testBit ·)

def bitsOf (bytes : List UInt8) : List Bool :=
  bytes.flatMap byteBits

/-- A number of `n` bits, the lowest first, added to `done` from the place `weight` on. -/
def takeNumber (weight done : Nat) : Nat → List Bool → Option (Nat × List Bool)
  | 0, bits => some (done, bits)
  | _ + 1, [] => none
  | n + 1, b :: bits => takeNumber (2 * weight) (if b then done + weight else done) n bits

def number? (n : Nat) (bits : List Bool) : Option (Nat × List Bool) :=
  takeNumber 1 0 n bits

def align (bits : List Bool) : List Bool :=
  bits.drop (bits.length % 8)

end Wordcode.Deflate
