import Chip8.Picture
import Chip8.Run
import Chip8.Text.Quoted
import Chip8.Tool.Report

namespace Chip8.Runner

def usage : String := "Usage: tsx scripts/run-rom.ts <rom.ch8> [--max=1000] [--hz=700]"

/-- The steps to a tick of the timers: a sixtieth of the rate, rounded, a half upwards, and at
least one. -/
def stepsPerTick (cpuHz : Rat) : Nat := max 1 (Binary64.div cpuHz 60 + mkRat 1 2).floor.toNat

def stopName : Run.Stop → String
  | .fault _ => "error"
  | .loop => "loop"
  | .timeout => "timeout"

def summary (path : String) (r : Run.Report) : String :=
  let message :=
    match r.stop with
    | .fault o => Text.quoted o.description
    | _ => "null"
  let registers := ",".intercalate (r.machine.v.toList.map fun b ↦ toString b.toNat)
  "\x7b\"rom\":" ++ Text.quoted path ++ ",\"steps\":" ++ toString r.steps ++ ",\"reason\":" ++
    Text.quoted (stopName r.stop) ++ ",\"message\":" ++ message ++ ",\"pc\":" ++
    toString r.machine.pc.toNat ++ ",\"i\":" ++ toString r.machine.index.toNat ++ ",\"v\":[" ++
    registers ++ "]\x7d"

def report (path : String) (r : Run.Report) : Report :=
  let code :=
    match r.stop with
    | .fault _ => 1
    | _ => 0
  .lines (Picture.lines r.machine.screen.frame ++ [summary path r]) ++ .exitWith code

def run (i : Invocation) : Report :=
  match i.settings usage with
  | .error r => r
  | .ok (s, path) =>
    match i.files.readProgram path with
    | (calls, .error e) => .call calls ++ .warn e.description ++ .exitWith 2
    | (calls, .ok image) =>
      match Run.program s.dialect i.random (stepsPerTick s.cpuHz) s.maxSteps image with
      | .error e => .call calls ++ .warn e.description ++ .exitWith 2
      | .ok r => .call calls ++ report path r

end Chip8.Runner
