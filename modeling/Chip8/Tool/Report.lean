import Chip8.Random
import Chip8.Raster
import Chip8.Rom.File
import Chip8.Settings

namespace Chip8

inductive TerminalCall
  | raw (on : Bool)
  | encodeUtf8
  | resume
  | pause
  deriving DecidableEq, Repr

structure Report where
  out : String
  err : String
  exit : Option Nat
  calls : List FileCall
  terminal : List TerminalCall
  written : List (String × Raster)

namespace Report

def empty : Report := ⟨"", "", none, [], [], []⟩

def print (s : String) : Report := { empty with out := s }

def warn (line : String) : Report := { empty with err := line ++ "\n" }

def call (cs : List FileCall) : Report := { empty with calls := cs }

def exitWith (code : Nat) : Report := { empty with exit := some code }

def andThen (a b : Report) : Report :=
  if a.exit.isSome then a
  else
    { out := a.out ++ b.out
      err := a.err ++ b.err
      exit := b.exit
      calls := a.calls ++ b.calls
      terminal := a.terminal ++ b.terminal
      written := a.written ++ b.written }

instance : Append Report := ⟨andThen⟩

def lines (ls : List String) : Report := print (String.join (ls.map (· ++ "\n")))

end Report

structure Invocation where
  args : List String
  env : String → Option String
  files : FileTable
  random : RandomSource

namespace Invocation

def settings (i : Invocation) (usage : String) : Except Report (Settings × String) :=
  match Settings.ofArguments i.args i.env with
  | .error e => .error (.warn ("Error: " ++ e.message) ++ .exitWith 1)
  | .ok s =>
    match s.rom with
    | some path =>
      if path.isEmpty then .error (.warn usage ++ .exitWith 2) else .ok (s, path)
    | none => .error (.warn usage ++ .exitWith 2)

end Invocation

end Chip8
