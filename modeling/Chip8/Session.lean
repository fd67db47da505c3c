import Chip8.Keyboard
import Chip8.Number.Binary64
import Chip8.Settings
import Chip8.Trace

namespace Chip8

structure Session where
  machine : Machine
  romPath : Option String
  paused : Bool
  halt : Option Outcome
  status : String
  dialect : Dialect
  cpuHz : Rat
  carry : Rat
  tracing : Bool

namespace Session

def statusIdle : String := "Please select a ROM file."

def statusPaused : String := "Paused."

def statusRunning (path : String) : String := "Now running " ++ path

def framesPerSecond : Rat := 60

/-- A rate that is not positive counts as none given. -/
def rate (cpuHz : Option Rat) : Rat :=
  match cpuHz with
  | some hz => if 0 < hz then hz else Settings.defaultHz
  | none => Settings.defaultHz

def new (cpuHz : Option Rat) (dialect : Dialect) (random : RandomSource) : Session where
  machine := .new dialect random
  romPath := none
  paused := false
  halt := none
  status := statusIdle
  dialect := dialect
  cpuHz := rate cpuHz
  carry := 0
  tracing := false

/-- A new machine for the session. It goes on with the random numbers of the last one. -/
def freshMachine (s : Session) : Machine := .new s.dialect s.machine.random

def setTracing (s : Session) (on : Bool) : Session := { s with tracing := on }

/-- Loads a program that was read into a new machine. If there is none to load, the old machine
goes on and only the status changes. -/
def load (s : Session) (path : String) (read : Except LoadError Image) :
    Session × Except LoadError Nat :=
  match s.freshMachine.load read with
  | (_, .error e) => ({ s with status := e.description }, .error e)
  | (m, .ok size) =>
    ({ s with
        machine := m
        romPath := some path
        paused := false
        halt := none
        carry := 0
        status := statusRunning path }, .ok size)

def reset (s : Session) : Session :=
  { s with
    machine := s.freshMachine
    romPath := none
    paused := false
    halt := none
    carry := 0
    status := statusIdle }

def togglePause (s : Session) : Session :=
  match s.machine.running, s.halt, s.romPath with
  | true, none, some path =>
    { s with
      paused := !s.paused
      status := if s.paused then statusRunning path else statusPaused }
  | _, _, _ => s

def toggle (s : Session) (flag : Nat) : Session × Bool :=
  let dialect := s.dialect.toggle flag
  let on := dialect.has flag
  let machine := if on then s.machine.setFlag flag else s.machine.clearFlag flag
  ({ s with dialect := dialect, machine := machine }, on)

structure Burst where
  machine : Machine
  executed : Nat
  fault : Option Outcome
  lines : List String

/-- Steps until one fails, at most `budget` ones, after `executed` that succeeded and whose trace is
`lines`, the latest first. -/
def burst (tracing : Bool) : (budget executed : Nat) → (lines : List String) → Machine → Burst
  | 0, executed, lines, m => ⟨m, executed, none, lines.reverse⟩
  | budget + 1, executed, lines, m =>
    let lines := if tracing then m.traceLine?.toList ++ lines else lines
    match m.step with
    | (next, .success) => burst tracing budget (executed + 1) lines next
    | (next, o) => ⟨next, executed, some o, lines.reverse⟩

def budget (s : Session) : Rat := Binary64.add (Binary64.div s.cpuHz framesPerSecond) s.carry

def isActive (s : Session) : Bool := !s.paused && s.halt.isNone && s.machine.running

/-- One frame: the whole steps of the budget and one tick of the timers, which a failing step
prevents. Gives the number of steps that succeeded, and the trace. -/
def runFrame (s : Session) : Session × Nat × List String :=
  if s.isActive then
    let steps := s.budget.floor
    let carry := Binary64.sub s.budget steps
    let b := burst s.tracing steps.toNat 0 [] s.machine
    match b.fault with
    | some o =>
      ({ s with machine := b.machine, carry := carry, halt := some o, status := o.description },
        b.executed, b.lines)
    | none => ({ s with machine := b.machine.tick, carry := carry }, b.executed, b.lines)
  else (s, 0, [])

def stepMachine (s : Session) : Session × Outcome × List String :=
  let lines := if s.tracing then s.machine.traceLine?.toList else []
  let (m, o) := s.machine.step
  ({ s with machine := m }, o, lines)

def setKey (s : Session) (name : String) (down : Bool) : Session × Bool :=
  match Keyboard.keyFor? name with
  | some key => ({ s with machine := s.machine.setKey key down }, true)
  | none => (s, false)

def press (s : Session) (name : String) : Session × Bool := s.setKey name true

def release (s : Session) (name : String) : Session × Bool := s.setKey name false

end Session

end Chip8
