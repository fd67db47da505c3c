import Chip8.Png
import Chip8.Terminal.Host
import Chip8.Tool.Capture
import Chip8.Tool.Runner
import Chip8.Tool.Tracer

namespace Chip8.CommandLine

def variableNames : List String :=
  ["ROM", "CHIP8_CPU_HZ", "CHIP8_QUIRKS", "CHIP8_SCALE", "TRACE_MAX", "CHIP8_FRAMES", "CHIP8_OUT",
    "TRACE_CHIP8"]

def environment : IO (String → Option String) := do
  let values ← variableNames.mapM fun name ↦ do return (name, ← IO.getEnv name)
  return fun name ↦ (values.lookup name).join

def plainFile (data : Image) : FileEntry :=
  ⟨data, data.size, true, none, none, none, [], none, none⟩

def fileAt (path : String) : IO (Option FileEntry) := do
  try
    let data ← IO.FS.readBinFile path
    return some (plainFile data.data)
  catch e =>
    match e with
    | .noFileOrDirectory .. => return none
    | e =>
      let failure := Failure.error none (toString e)
      return some { plainFile #[] with openFailure := some failure }

def invocation (args : List String) : IO Invocation := do
  let env ← environment
  let rom :=
    match Settings.ofArguments args env with
    | .ok s => s.rom.getD ""
    | .error _ => ""
  let file ← if rom.isEmpty then pure none else fileAt rom
  let seed ← IO.rand 0 0xFFFFFFFF
  return {
    args := args
    env := env
    files := fun path ↦ if path = rom then file else none
    random := ⟨fun k ↦ (hash (seed, k)).toNat % 256, 0⟩ }

def writeImage (path : String) (image : Raster) : IO Unit := do
  IO.FS.createDirAll (FilePath.directory path)
  IO.FS.writeBinFile path ⟨Png.encode image⟩

def perform (r : Report) : IO UInt32 := do
  for (path, image) in r.written do
    writeImage path image
  let out ← IO.getStdout
  out.putStr r.out
  out.flush
  (← IO.getStderr).putStr r.err
  return UInt32.ofNat (r.exit.getD 0)

def frameTime : Nat := 16

partial def play (h : Host) (input : Task (Except IO.Error ByteArray)) : IO UInt32 := do
  IO.sleep (UInt32.ofNat frameTime)
  let mut events := [HostEvent.wait frameTime, .frames 1]
  let mut input := input
  if ← IO.hasFinished input then
    match input.get with
    | .ok bytes =>
      if !bytes.isEmpty then
        events := .input ((String.fromUTF8? bytes).getD "") :: events
        let stdin ← IO.getStdin
        input ← IO.asTask (stdin.read 256)
    | .error _ => pure ()
  let (h, r) := Host.inTurn Host.handle h events
  let code ← perform r
  if r.exit.isSome then return code
  play h input

def terminal (i : Invocation) : IO UInt32 := do
  let stdin ← IO.getStdin
  let (host, r) := Host.start i (← stdin.isTty)
  let code ← perform r
  match host with
  | none => return code
  | some h => play h (← IO.asTask (stdin.read 256))

end Chip8.CommandLine

open Chip8 CommandLine in
def main (args : List String) : IO UInt32 := do
  try
    match args with
    | "run-rom" :: rest => perform (Runner.run (← invocation rest))
    | "trace-rom" :: rest => perform (Tracer.run (← invocation rest))
    | "screenshot" :: rest => perform (Capture.run (← invocation rest))
    | "terminal" :: rest => terminal (← invocation rest)
    | _ =>
      for usage in [Runner.usage, Tracer.usage, Capture.usage, Host.usage] do
        IO.eprintln usage
      return 2
  catch e =>
    IO.eprintln ("Error: " ++ toString e)
    return 1
