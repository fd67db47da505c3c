namespace Chip8

/-- A set of behaviours. Bits that name no behaviour are kept and have no effect. -/
structure Dialect where
  bits : Nat
  deriving DecidableEq, Repr

namespace Dialect

def shiftsSecond : Nat := 1

def jumpsByX : Nat := 2

def movesIndex : Nat := 4

def all : Nat := shiftsSecond ||| jumpsByX ||| movesIndex

def plain : Dialect := ⟨0⟩

def has (d : Dialect) (flag : Nat) : Bool := d.bits &&& flag != 0

def set (d : Dialect) (flag : Nat) : Dialect := ⟨d.bits ||| flag⟩

def clear (d : Dialect) (flag : Nat) : Dialect := ⟨d.bits ^^^ (d.bits &&& flag)⟩

def toggle (d : Dialect) (flag : Nat) : Dialect := ⟨d.bits ^^^ flag⟩

def label? (flag : Nat) : Option String :=
  if flag = shiftsSecond then some "Shifts use VY"
  else if flag = jumpsByX then some "BNNN uses VX"
  else if flag = movesIndex then some "FX changes I"
  else none

end Dialect

end Chip8
