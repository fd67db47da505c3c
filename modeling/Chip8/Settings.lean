import Chip8.Dialect.Names
import Chip8.Number.Decimal

namespace Chip8

inductive Argument
  | rom (path : String)
  | hz (text : String)
  | dialect (names : String)
  | scale (text : String)
  | maxSteps (text : String)
  | frames (text : String)
  | out (path : String)
  | trace
  | ignored (text : String)
  deriving DecidableEq, Repr

namespace Argument

def valued : List (String × (String → Argument)) :=
  [("--rom=", rom), ("--hz=", hz), ("--quirks=", dialect), ("--scale=", scale),
   ("--max=", maxSteps), ("--frames=", frames), ("--out=", out)]

def valueAfter? (start text : String) : Option String :=
  if start.toList.isPrefixOf text.toList then some (String.ofList (text.toList.drop start.length))
  else none

def ofString (text : String) : Argument :=
  match valued.findSome? fun (start, make) ↦ (valueAfter? start text).map make with
  | some a => a
  | none =>
    if text = "--trace" then trace
    else if (valueAfter? "--" text).isSome then ignored text
    else rom text

end Argument

structure RawSettings where
  rom : Option String
  hz : Option String
  dialect : String
  scale : Option String
  maxSteps : Option String
  frames : Option String
  out : Option String
  trace : Bool
  deriving DecidableEq, Repr

namespace RawSettings

/-- The settings of the environment. A variable that is empty counts as not set. -/
def ofEnvironment (env : String → Option String) : RawSettings :=
  let value (name : String) : Option String := (env name).filter (· ≠ "")
  { rom := value "ROM"
    hz := value "CHIP8_CPU_HZ"
    dialect := (value "CHIP8_QUIRKS").getD ""
    scale := value "CHIP8_SCALE"
    maxSteps := value "TRACE_MAX"
    frames := value "CHIP8_FRAMES"
    out := value "CHIP8_OUT"
    trace := value "TRACE_CHIP8" == some "1" }

def apply (r : RawSettings) : Argument → RawSettings
  | .rom s => { r with rom := some s }
  | .hz s => { r with hz := some s }
  | .dialect s => { r with dialect := s }
  | .scale s => { r with scale := some s }
  | .maxSteps s => { r with maxSteps := some s }
  | .frames s => { r with frames := some s }
  | .out s => { r with out := some s }
  | .trace => { r with trace := true }
  | .ignored _ => r

end RawSettings

structure Settings where
  rom : Option String
  cpuHz : Rat
  dialect : Dialect
  scale : Nat
  maxSteps : Nat
  frames : Nat
  out : Option String
  trace : Bool
  deriving DecidableEq

namespace Settings

def defaultHz : Rat := 700

def defaultScale : Nat := 10

def defaultMaxSteps : Nat := 1000

def defaultFrames : Nat := 60

def positive (text : Option String) (default : Rat) : Rat :=
  match text.bind Decimal.leadingNumber? with
  | some q => if 0 < q then q else default
  | none => default

def positiveWhole (text : Option String) (default : Nat) : Nat :=
  match text.bind Decimal.leadingWhole? with
  | some q => if 0 < q then q.floor.toNat else default
  | none => default

def ofRaw (r : RawSettings) : Except Dialect.UnknownName Settings := do
  let dialect ← Dialect.ofNames r.dialect
  return {
    rom := r.rom
    cpuHz := positive r.hz defaultHz
    dialect := dialect
    scale := positiveWhole r.scale defaultScale
    maxSteps := positiveWhole r.maxSteps defaultMaxSteps
    frames := positiveWhole r.frames defaultFrames
    out := r.out
    trace := r.trace }

/-- The environment first and then the arguments, the last one of a kind winning. -/
def ofArguments (args : List String) (env : String → Option String) :
    Except Dialect.UnknownName Settings :=
  ofRaw ((args.map Argument.ofString).foldl RawSettings.apply (.ofEnvironment env))

end Settings

end Chip8
