import Chip8.Dialect
import Chip8.Digit
import Chip8.Keypad
import Chip8.Text.Lowercase

namespace Chip8

inductive HostCommand
  | pause
  | quit
  | reset
  | toggle (flag : Nat)
  deriving DecidableEq, Repr

namespace Keyboard

/-- The left four columns of the keyboard, in the arrangement of the keypad. On keyboards where
`y` and `z` are exchanged, `y` is the key in the place of `z`. -/
def keys : List (String × Key) :=
  [("1", 0x1), ("2", 0x2), ("3", 0x3), ("4", 0xC),
   ("q", 0x4), ("w", 0x5), ("e", 0x6), ("r", 0xD),
   ("a", 0x7), ("s", 0x8), ("d", 0x9), ("f", 0xE),
   ("z", 0xA), ("x", 0x0), ("c", 0xB), ("v", 0xF),
   ("y", 0xA)].map fun (name, key) ↦ (name, lowDigit key)

def commands : List (String × HostCommand) :=
  [("p", .pause), ("escape", .quit), ("ctrl-c", .quit),
   ("f1", .toggle Dialect.shiftsSecond), ("f2", .toggle Dialect.jumpsByX),
   ("f3", .toggle Dialect.movesIndex), ("f5", .reset)]

def keyFor? (name : String) : Option Key := keys.lookup (Text.lowercase name)

def commandFor? (name : String) : Option HostCommand := commands.lookup (Text.lowercase name)

end Keyboard

end Chip8
