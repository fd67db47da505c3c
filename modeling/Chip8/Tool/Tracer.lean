import Chip8.Run
import Chip8.Tool.Runner
import Chip8.Trace

namespace Chip8.Tracer

def usage : String := "Usage: tsx scripts/trace-rom.ts <rom.ch8> [--max=1000] [--quirks=...]"

structure Traced where
  machine : Machine
  steps : Nat
  lines : List String
  fault : Option Outcome

/-- Goes on from a machine that made `steps` steps, for at most `budget` more, through jumps to
themselves too. -/
def continueFrom (every : Nat) : (budget steps : Nat) → (lines : List String) → Machine → Traced
  | 0, steps, lines, m => ⟨m, steps, lines, none⟩
  | budget + 1, steps, lines, m =>
    let lines := m.traceLine?.toList ++ lines
    match m.step with
    | (next, .success) =>
      continueFrom every budget (steps + 1) lines (Run.tickAfter every (steps + 1) next)
    | (next, o) => ⟨next, steps, lines, some o⟩

def report (t : Traced) : Report :=
  .lines t.lines.reverse ++
    match t.fault with
    | some o => .warn o.description ++ .exitWith 1
    | none => .empty

def run (i : Invocation) : Report :=
  match i.settings usage with
  | .error r => r
  | .ok (s, path) =>
    match i.files.readProgram path with
    | (calls, .error e) => .call calls ++ .warn e.description ++ .exitWith 2
    | (calls, .ok image) =>
      match (Machine.new s.dialect i.random).load (.ok image) with
      | (_, .error e) => .call calls ++ .warn e.description ++ .exitWith 2
      | (m, .ok _) =>
        .call calls ++
          report (continueFrom (Runner.stepsPerTick s.cpuHz) s.maxSteps 0 [] m)

end Chip8.Tracer
