import Chip8.Proofs.Machine.Bounds

namespace Chip8

namespace Arith

/-- The number that goes to `Vx`, where `a` and `b` are the old values of `Vx` and `Vy`, and `s` is
the value to shift. -/
def value (op : Arith) (a b s : Nat) : Nat :=
  match op with
  | .copy => b
  | .or => a ||| b
  | .and => a &&& b
  | .xor => a ^^^ b
  | .add => (a + b) % 0x100
  | .sub => (a + 0x100 - b) % 0x100
  | .subFrom => (b + 0x100 - a) % 0x100
  | .shiftRight => s / 2
  | .shiftLeft => 2 * s % 0x100

end Arith

namespace Machine

variable {m : Machine} {w : UInt16} {op : Arith} {x y : Register}

end Machine

end Chip8
