namespace Chip8.Text

def unitsOfChar (c : Char) : List UInt16 :=
  let n := c.toNat
  if n < 0x10000 then [UInt16.ofNat n]
  else
    let m := n - 0x10000
    [UInt16.ofNat (0xD800 + m / 0x400), UInt16.ofNat (0xDC00 + m % 0x400)]

def units (s : String) : List UInt16 := s.toList.flatMap unitsOfChar

def isSurrogate (u : UInt16) : Bool := 0xD800 ≤ u && u < 0xE000

end Chip8.Text
