import Chip8.Picture
import Chip8.Session
import Chip8.Terminal.KeyName
import Chip8.Tool.Report

namespace Chip8

structure Hold where
  name : String
  due : Int
  deriving DecidableEq, Repr

inductive HostEvent
  | input (text : String)
  | frames (n : Nat)
  | wait (ms : Int)
  deriving DecidableEq, Repr

structure Host where
  rom : String
  files : FileTable
  session : Session
  clock : Int
  held : List Hold
  drawn : Option (Nat × String)
  soundBefore : UInt8
  interactive : Bool

namespace Host

def usage : String :=
  "Usage: tsx src/host/terminal/main.ts <rom.ch8> [--hz=700] " ++
    "[--quirks=shift-vy,bnnn-vx,fx-i] [--trace]"

/-- How long a key counts as held after it was last seen, in thousandths of a second. -/
def holdTime : Int := 150

def control (s : String) : String := "\x1b[" ++ s

def hideCursor : String := control "?25l"

def showCursor : String := control "?25h"

def clearScreen : String := control "2J"

def home : String := control "H"

def clearLine : String := control "K"

def bell : String := "\x07"

def switchLine (d : Dialect) : String :=
  let item (p : Nat × Nat) : String :=
    "F" ++ toString (p.2 + 1) ++ " " ++ (Dialect.label? p.1).getD "" ++ ": " ++
      if d.has p.1 then "on" else "off"
  "  ".intercalate
    ([Dialect.shiftsSecond, Dialect.jumpsByX, Dialect.movesIndex].zipIdx.map item)

def statusText (s : Session) : String := s.status ++ "\n" ++ switchLine s.dialect

def screenText (s : Session) : String :=
  home ++ "\n".intercalate (Picture.lines s.machine.screen.frame) ++ "\n\n" ++ statusText s ++
    clearLine ++ "\n" ++ "p pause  F5 reset  Esc quit" ++ clearLine

/-- Shows the session. Unless it must, it writes nothing when neither the screen nor the text below
has changed since the last time. -/
def draw (h : Host) (must : Bool) : Host × Report :=
  let now := (h.session.machine.screen.revision, statusText h.session)
  if !must && h.drawn == some now then (h, .empty)
  else ({ h with drawn := some now }, .print (screenText h.session))

def releaseAll (h : Host) : Host :=
  { h with session := h.held.foldl (fun s k ↦ (s.release k.name).1) h.session, held := [] }

def quit (h : Host) : Host × Report :=
  let terminal := if h.interactive then [TerminalCall.raw false, .pause] else [.pause]
  (h.releaseAll,
    { Report.empty with terminal := terminal, out := showCursor ++ "\n" } ++ .exitWith 0)

def restart (h : Host) : Host × Report :=
  let h := h.releaseAll
  let (calls, read) := h.files.readProgram h.rom
  match h.session.reset.load h.rom read with
  | (s, .error _) => ({ h with session := s }, .call calls ++ .warn s.status)
  | (s, .ok _) => ({ h with session := s }, .call calls)

def obey (h : Host) : HostCommand → Host × Report
  | .pause => ({ h with session := h.session.togglePause }, .empty)
  | .quit => h.quit
  | .reset => h.restart
  | .toggle flag => ({ h with session := (h.session.toggle flag).1 }, .empty)

/-- A key of the keypad is pressed, and held from now on if it was not, or again if it was. -/
def hold (h : Host) (name : String) : Host :=
  match h.session.press name with
  | (_, false) => h
  | (s, true) =>
    { h with
      session := s
      held := h.held.filter (·.name ≠ name) ++ [⟨name, h.clock + holdTime⟩] }

def onKey (h : Host) : KeyName → Host × Report
  | .half _ => (h, .empty)
  | .text name =>
    match Keyboard.commandFor? name with
    | none => (h.hold name, .empty)
    | some c =>
      let (h, r) := h.obey c
      let (h, shown) := h.draw true
      (h, r ++ shown)

def onFrame (h : Host) : Host × Report :=
  let (s, _, lines) := h.session.runFrame
  let sound := s.machine.timers.sound
  let rings := 0 < sound && h.soundBefore == 0
  let trace : Report := { Report.empty with err := String.join (lines.map (· ++ "\n")) }
  let (h, shown) := { h with session := s, soundBefore := sound }.draw false
  (h, trace ++ (if rings then .print bell else .empty) ++ shown)

def onWait (h : Host) (ms : Int) : Host :=
  let clock := h.clock + ms
  let (expired, held) := h.held.partition (·.due ≤ clock)
  { h with
    clock := clock
    held := held
    session := expired.foldl (fun s k ↦ (s.release k.name).1) h.session }

def inTurn {α : Type} (f : Host → α → Host × Report) (h : Host) (as : List α) : Host × Report :=
  as.foldl (fun (h, done) a ↦
    if done.exit.isSome then (h, done)
    else
      let (h, r) := f h a
      (h, done ++ r)) (h, .empty)

def handle (h : Host) : HostEvent → Host × Report
  | .input text => inTurn onKey h (KeyName.ofString text)
  | .frames n => inTurn (fun h _ ↦ h.onFrame) h (List.range n)
  | .wait ms => (h.onWait ms, .empty)

def start (i : Invocation) (interactive : Bool) : Option Host × Report :=
  match Settings.ofArguments i.args i.env with
  | .error e => (none, .print showCursor ++ .warn ("Error: " ++ e.message) ++ .exitWith 1)
  | .ok settings =>
    let rom := settings.rom.getD ""
    if rom.isEmpty then (none, .warn usage ++ .exitWith 2)
    else
      let (calls, read) := i.files.readProgram rom
      let session := Session.new settings.cpuHz settings.dialect i.random
      match (session.setTracing settings.trace).load rom read with
      | (s, .error _) => (none, .call calls ++ .warn s.status ++ .exitWith 1)
      | (s, .ok _) =>
        let terminal : List TerminalCall :=
          if interactive then [.raw true, .encodeUtf8, .resume] else [.encodeUtf8, .resume]
        let h : Host := ⟨rom, i.files, s, 0, [], none, 0, interactive⟩
        let (h, shown) := h.draw true
        (some h,
          .call calls ++ { Report.empty with terminal := terminal } ++
            .print (hideCursor ++ clearScreen) ++ shown)

def run : Host → List HostEvent → List Report
  | _, [] => []
  | h, e :: es =>
    let (h, r) := h.handle e
    if r.exit.isSome then [r] else r :: run h es

end Host

end Chip8
