import Chip8.Dialect
import Chip8.Keypad
import Chip8.Memory
import Chip8.Random
import Chip8.Rom.LoadError
import Chip8.Screen
import Chip8.Timers

namespace Chip8

abbrev Registers := Vector UInt8 16

/-- The stack holds return addresses, the newest first. -/
structure Machine where
  memory : Memory
  screen : Screen
  keypad : Keypad
  timers : Timers
  v : Registers
  index : UInt16
  pc : UInt16
  stack : List UInt16
  dialect : Dialect
  random : RandomSource
  running : Bool

namespace Machine

def new (dialect : Dialect) (random : RandomSource) : Machine where
  memory := .initial
  screen := .initial
  keypad := .initial
  timers := .initial
  v := Vector.replicate 16 0
  index := 0
  pc := UInt16.ofNat Memory.programStart
  stack := []
  dialect := dialect
  random := random
  running := false

/-- Memory, screen, timers, registers and stack as in a new machine. Clearing the screen counts as
a change of it; keys, dialect and random source stay. -/
def restart (m : Machine) : Machine :=
  { m with
    memory := .initial
    screen := m.screen.clear
    timers := .initial
    v := Vector.replicate 16 0
    index := 0
    pc := UInt16.ofNat Memory.programStart
    stack := [] }

def reset (m : Machine) (dialect : Dialect) : Machine :=
  { m.restart with keypad := .initial, dialect := dialect, running := false }

def start (m : Machine) (image : Image) : Machine :=
  let m := m.restart
  { m with memory := m.memory.loadProgram image, running := true }

/-- Loads a program that was read. A program that could not be read or is too long leaves the
machine as it was. The number is the size of the program. -/
def load (m : Machine) (read : Except LoadError Image) : Machine × Except LoadError Nat :=
  match read.bind LoadError.checkImage with
  | .ok image => (m.start image, .ok image.size)
  | .error e => (m, .error e)

theorem load_of_le (m : Machine) {image : Image} (h : image.size ≤ Memory.programLimit) :
    m.load (.ok image) = (m.start image, .ok image.size) := by
  have hc : LoadError.checkSize image.size = .ok () := if_neg (by omega)
  simp only [load, Except.bind, LoadError.checkImage, hc, Except.map]

theorem load_of_lt (m : Machine) {image : Image} (h : Memory.programLimit < image.size) :
    m.load (.ok image) = (m, .error (.tooLarge image.size Memory.programLimit)) := by
  have hc : LoadError.checkSize image.size = .error (.tooLarge image.size Memory.programLimit) :=
    if_pos (by omega)
  simp only [load, Except.bind, LoadError.checkImage, hc, Except.map]

def tick (m : Machine) : Machine := { m with timers := m.timers.tick }

def setKey (m : Machine) (key : Key) (down : Bool) : Machine :=
  { m with keypad := m.keypad.set key down }

def setKeyNumber (m : Machine) (q : Rat) (down : Bool) : Machine :=
  { m with keypad := m.keypad.setNumber q down }

def setFlag (m : Machine) (flag : Nat) : Machine := { m with dialect := m.dialect.set flag }

def clearFlag (m : Machine) (flag : Nat) : Machine := { m with dialect := m.dialect.clear flag }

def poke (m : Machine) (a n : Int) : Machine :=
  { m with memory := m.memory.write a (UInt8.ofInt n) }

end Machine

end Chip8
