namespace Chip8.Hex

def digits (n : Nat) : List Char := (Nat.toDigits 16 n).map Char.toUpper

def padded (width : Nat) (cs : List Char) : String := String.ofList (cs.leftpad width '0')

def byte (n : Int) : String := padded 2 (digits (n % 0x100).toNat)

/-- Three digits or more for the whole number. The zeros stand before the sign, which counts as
one of the three. -/
def address (n : Int) : String :=
  padded 3 (if n < 0 then '-' :: digits n.natAbs else digits n.natAbs)

def word (n : Int) : String := padded 4 (digits (n % 0x10000).toNat)

end Chip8.Hex
