import Mathlib.Logic.Function.Basic
import Chip8.Session.History

namespace Chip8

/-- What a machine calls between the fetch of a word and its execution. -/
structure Hook where
  shows : Nat
  listener : Nat

structure HookedMachine where
  machine : Machine
  hook : Option Hook

def HookedMachine.unhooked (h : HookedMachine) : HookedMachine := { h with hook := none }

structure Call where
  listener : Nat
  line : String

@[ext] structure WatchedSession where
  machines : Nat → HookedMachine
  made : Nat
  current : Nat
  listener : Option Nat
  romPath : Option String
  paused : Bool
  halt : Option Outcome
  status : String
  dialect : Dialect
  cpuHz : Rat
  carry : Rat

inductive WatchedEvent
  | load (path : String) (read : Except LoadError Image)
  | reset
  | togglePause
  | toggle (b : Behaviour)
  | frame
  | press (name : String)
  | release (name : String)
  | listen (listener : Option Nat)

namespace WatchedSession

def new (cpuHz : Option Rat) (dialect : Dialect) (random : RandomSource) : WatchedSession where
  machines := fun _ ↦ ⟨.new dialect random, none⟩
  made := 1
  current := 0
  listener := none
  romPath := none
  paused := false
  halt := none
  status := Session.statusIdle
  dialect := dialect
  cpuHz := Session.rate cpuHz
  carry := 0

def machine (w : WatchedSession) : Machine := (w.machines w.current).machine

def session (w : WatchedSession) : Session where
  machine := w.machine
  romPath := w.romPath
  paused := w.paused
  halt := w.halt
  status := w.status
  dialect := w.dialect
  cpuHz := w.cpuHz
  carry := w.carry
  tracing := w.listener.isSome

def setMachine (w : WatchedSession) (n : Nat) (m : Machine) : WatchedSession :=
  { w with machines := Function.update w.machines n { w.machines n with machine := m } }

def setCurrent (w : WatchedSession) (m : Machine) : WatchedSession := w.setMachine w.current m

def put (w : WatchedSession) (s : Session) : WatchedSession :=
  { w.setCurrent s.machine with
    romPath := s.romPath
    paused := s.paused
    halt := s.halt
    status := s.status
    dialect := s.dialect
    cpuHz := s.cpuHz
    carry := s.carry }

def make (w : WatchedSession) : WatchedSession :=
  { w with
    machines := Function.update w.machines w.made
      ⟨w.session.freshMachine, w.listener.map fun l ↦ ⟨w.made, l⟩⟩
    made := w.made + 1 }

def listen (w : WatchedSession) (listener : Option Nat) : WatchedSession :=
  { w with
    machines := Function.update w.machines w.current
      { w.machines w.current with hook := listener.map fun l ↦ ⟨w.current, l⟩ }
    listener := listener }

def load (w : WatchedSession) (path : String) (read : Except LoadError Image) :
    WatchedSession × Except LoadError Nat :=
  let next := w.make
  match (next.machines w.made).machine.load read with
  | (m, .error e) => ({ next.setMachine w.made m with status := e.description }, .error e)
  | (m, .ok size) =>
    ({ next.setMachine w.made m with
        current := w.made
        romPath := some path
        paused := false
        halt := none
        carry := 0
        status := Session.statusRunning path }, .ok size)

def reset (w : WatchedSession) : WatchedSession :=
  { w.make with
    current := w.made
    romPath := none
    paused := false
    halt := none
    carry := 0
    status := Session.statusIdle }

def call (w : WatchedSession) (pc word : UInt16) : List Call :=
  match (w.machines w.current).hook with
  | none => []
  | some h =>
    [⟨h.listener, Trace.line pc.toNat word.toNat (w.machines h.shows).machine.snapshot⟩]

def step (w : WatchedSession) : WatchedSession × Outcome × List Call :=
  let m := w.machine
  if !m.running then (w, .noProgram, [])
  else
    match m.fetch? with
    | none => (w, .outOfBounds m.pc.toNat m.pc.toNat, [])
    | some word =>
      let calls := w.call m.pc word
      match Instruction.decode? word with
      | none => (w, .invalidWord word.toNat m.pc.toNat, calls)
      | some i =>
        match m.fault? i with
        | some o => (w, o, calls)
        | none => (w.setCurrent (m.execute i), .success, calls)

structure Burst where
  session : WatchedSession
  executed : Nat
  fault : Option Outcome
  calls : List Call

def burst : (budget : Nat) → WatchedSession → Burst
  | 0, w => ⟨w, 0, none, []⟩
  | budget + 1, w =>
    match w.step with
    | (next, .success, calls) =>
      let b := burst budget next
      { b with executed := b.executed + 1, calls := calls ++ b.calls }
    | (next, o, calls) => ⟨next, 0, some o, calls⟩

def runFrame (w : WatchedSession) : WatchedSession × Nat × List Call :=
  if w.session.isActive then
    let steps := w.session.budget.floor
    let b := burst steps.toNat { w with carry := Binary64.sub w.session.budget steps }
    match b.fault with
    | some o =>
      ({ b.session with halt := some o, status := o.description }, b.executed, b.calls)
    | none => (b.session.setCurrent b.session.machine.tick, b.executed, b.calls)
  else (w, 0, [])

def onSession (w : WatchedSession) (e : SessionEvent) :
    WatchedSession × Option Session.Answer × List Call :=
  let (s, a) := w.session.perform e
  (w.put s, some a, [])

def perform (w : WatchedSession) : WatchedEvent → WatchedSession × Option Session.Answer × List Call
  | .load path read => let (w, result) := w.load path read; (w, some (.loaded result), [])
  | .reset => (w.reset, some .done, [])
  | .togglePause => w.onSession .togglePause
  | .toggle b => w.onSession (.toggle b)
  | .frame => let (w, executed, calls) := w.runFrame; (w, some (.ran executed []), calls)
  | .press name => w.onSession (.press name)
  | .release name => w.onSession (.release name)
  | .listen listener => (w.listen listener, none, [])

def run (w : WatchedSession) (es : List WatchedEvent) : WatchedSession :=
  es.foldl (fun w e ↦ (w.perform e).1) w

def answers (w : WatchedSession) : List WatchedEvent → List Session.Answer
  | [] => []
  | e :: es => (w.perform e).2.1.toList ++ (w.perform e).1.answers es

end WatchedSession

end Chip8
