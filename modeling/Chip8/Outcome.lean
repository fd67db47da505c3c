import Chip8.Text.Hex

namespace Chip8

/-- Anything but `success` leaves the machine as it was. The numbers are those of the machine when
it stopped: the word that is no instruction, the address of the instruction, and the first address
of the access that does not fit in memory. -/
inductive Outcome
  | success
  | noProgram
  | invalidWord (word pc : Int)
  | stackOverflow (pc : Int)
  | stackEmpty (pc : Int)
  | outOfBounds (pc address : Int)
  deriving DecidableEq, Repr

namespace Outcome

def pc? : Outcome → Option Int
  | invalidWord _ pc | stackOverflow pc | stackEmpty pc | outOfBounds pc _ => some pc
  | success | noProgram => none

def description : Outcome → String
  | success => "OK"
  | noProgram => "No ROM loaded."
  | invalidWord word pc => "Invalid opcode 0x" ++ Hex.word word ++ " at 0x" ++ Hex.address pc
  | stackOverflow pc => "Stack overflow at 0x" ++ Hex.address pc
  | stackEmpty pc => "Return with empty stack at 0x" ++ Hex.address pc
  | outOfBounds pc address =>
    "Memory access out of bounds (0x" ++ Hex.address address ++ ") at 0x" ++ Hex.address pc

end Outcome

end Chip8
