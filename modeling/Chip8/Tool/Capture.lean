import Chip8.FilePath
import Chip8.Session
import Chip8.Tool.Report

namespace Chip8.Capture

def usage : String :=
  "Usage: tsx scripts/screenshot.ts <rom.ch8> [--frames=60] [--scale=10] [--out=file.png]"

def runFrames : (budget frames : Nat) → Session → Session × Nat
  | 0, frames, s => (s, frames)
  | budget + 1, frames, s =>
    if s.halt.isSome then (s, frames) else runFrames budget (frames + 1) s.runFrame.1

def defaultPath (rom : String) : String :=
  "screenshots/" ++ FilePath.withoutExtension (FilePath.base rom) ++ ".png"

def write (files : FileTable) (path : String) (image : Raster) : Report :=
  let failed (f : Failure) : Report := .warn f.report ++ .exitWith 1
  let directory := FilePath.directory path
  match (files directory).bind FileEntry.mkdirFailure with
  | some f => .call [.mkdir directory] ++ failed f
  | none =>
    match (files path).bind FileEntry.writeFailure with
    | some f => .call [.mkdir directory, .create path] ++ failed f
    | none =>
      { Report.call [.mkdir directory, .create path] with written := [(path, image)] } ++
        .lines ["Wrote " ++ path]

def take (i : Invocation) (settings : Settings) (rom : String) (session : Session) : Report :=
  let (s, frames) := runFrames settings.frames 0 session
  let warning : Report :=
    if s.halt.isSome then .warn ("Stopped after " ++ toString frames ++ " frames: " ++ s.status)
    else .empty
  warning ++ write i.files (settings.out.getD (defaultPath rom))
    (Raster.ofFrame s.machine.screen.frame settings.scale .white .black)

def run (i : Invocation) : Report :=
  match i.settings usage with
  | .error r => r
  | .ok (settings, rom) =>
    let (calls, read) := i.files.readProgram rom
    match (Session.new settings.cpuHz settings.dialect i.random).load rom read with
    | (s, .error _) => .call calls ++ .warn s.status ++ .exitWith 2
    | (s, .ok _) => .call calls ++ take i settings rom s

end Chip8.Capture
