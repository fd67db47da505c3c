import Chip8.Instruction.Listing
import Chip8.Machine.Step
import Chip8.Number.Notation

namespace Chip8

structure Snapshot where
  v : List Int
  index : Int
  depth : Whole
  delay : Int
  sound : Int
  deriving DecidableEq, Repr

namespace Trace

def registerColumn : Nat := 34

def instructionPart (pc word : Int) : String :=
  let s := Hex.address pc ++ "  " ++ Hex.word word ++ "  " ++
    (Listing.ofWord (UInt16.ofInt word)).text
  s ++ String.ofList (List.replicate (max 1 (registerColumn - s.length)) ' ')

def registerPart (s : Snapshot) : String :=
  "V:" ++ " ".intercalate (s.v.map Hex.byte) ++ " I:" ++ Hex.address s.index ++
    " SP:" ++ s.depth.text ++ " DT:" ++ Hex.byte s.delay ++ " ST:" ++ Hex.byte s.sound

def line (pc word : Int) (s : Snapshot) : String := instructionPart pc word ++ registerPart s

end Trace

namespace Machine

def snapshot (m : Machine) : Snapshot where
  v := m.v.toList.map fun b ↦ (b.toNat : Int)
  index := m.index.toNat
  depth := .nearest m.stack.length
  delay := m.timers.delay.toNat
  sound := m.timers.sound.toNat

def traceLine? (m : Machine) : Option String :=
  m.upcoming?.map fun (pc, w) ↦ Trace.line pc.toNat w.toNat m.snapshot

end Machine

end Chip8
