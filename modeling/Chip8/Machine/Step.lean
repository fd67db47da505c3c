import Chip8.Instruction
import Chip8.Machine
import Chip8.Outcome

namespace Chip8

/-- The result of `8xyN` from the old values `a` of `Vx` and `b` of `Vy`, where `s` is the value to
shift; with the flag, if the operation has one. -/
def Arith.eval (op : Arith) (a b s : UInt8) : UInt8 × Option UInt8 :=
  let flag (p : Bool) : Option UInt8 := some (if p then 1 else 0)
  match op with
  | .copy => (b, none)
  | .or => (a ||| b, none)
  | .and => (a &&& b, none)
  | .xor => (a ^^^ b, none)
  | .add => (a + b, flag (255 < a.toNat + b.toNat))
  | .sub => (a - b, flag (b ≤ a))
  | .subFrom => (b - a, flag (a ≤ b))
  | .shiftRight => (s >>> 1, some (s &&& 1))
  | .shiftLeft => (s <<< 1, some (s >>> 7))

namespace Machine

def flagRegister : Register := lowDigit 0xF

def stackLimit : Nat := 16

def fetch? (m : Machine) : Option UInt16 :=
  if Memory.inBounds m.pc.toNat 2 then some (m.memory.readWord m.pc.toNat) else none

def span? : Instruction → Option Nat
  | .draw _ _ rows => some rows.val
  | .storeDecimal _ => some 3
  | .storeRegisters x | .loadRegisters x => some (x.val + 1)
  | _ => none

def fault? (m : Machine) (i : Instruction) : Option Outcome :=
  match i with
  | .ret => if m.stack.isEmpty then some (.stackEmpty m.pc.toNat) else none
  | .call _ => if stackLimit ≤ m.stack.length then some (.stackOverflow m.pc.toNat) else none
  | i =>
    match span? i with
    | some len =>
      if Memory.inBounds m.index.toNat len then none
      else some (.outOfBounds m.pc.toNat m.index.toNat)
    | none => none

def register (m : Machine) (x : Register) : UInt8 := m.v[x]

def setRegister (m : Machine) (x : Register) (b : UInt8) : Machine := { m with v := m.v.set x b }

def goTo (m : Machine) (a : UInt16) : Machine := { m with pc := a }

def advance (m : Machine) : Machine := m.goTo (m.pc + 2)

def advanceOver (m : Machine) (skip : Bool) : Machine :=
  if skip then m.advance.advance else m.advance

def keyIn (m : Machine) (x : Register) : Key := lowDigit m.v[x].toNat

def indexAfter (m : Machine) (count : Nat) : UInt16 :=
  if m.dialect.has Dialect.movesIndex then m.index + UInt16.ofNat count else m.index

/-- The result goes to `Vx` and then the flag to `VF`, so that the flag wins where both meet. -/
def executeArith (m : Machine) (op : Arith) (x y : Register) : Machine :=
  let s := if m.dialect.has Dialect.shiftsSecond then m.v[y] else m.v[x]
  match op.eval m.v[x] m.v[y] s with
  | (r, none) => m.setRegister x r
  | (r, some f) => (m.setRegister x r).setRegister flagRegister f

def execute (m : Machine) : Instruction → Machine
  | .clearScreen => { m with screen := m.screen.clear }.advance
  | .ret =>
    match m.stack with
    | [] => m
    | a :: rest => { m with stack := rest, pc := a }
  | .jump a => m.goTo (UInt16.ofNat a)
  | .call a => { m with stack := (m.pc + 2) :: m.stack, pc := UInt16.ofNat a }
  | .skipIfByte x kk => m.advanceOver (m.v[x] == kk)
  | .skipUnlessByte x kk => m.advanceOver (m.v[x] != kk)
  | .skipIfEqual x y => m.advanceOver (m.v[x] == m.v[y])
  | .skipUnlessEqual x y => m.advanceOver (m.v[x] != m.v[y])
  | .setByte x kk => (m.setRegister x kk).advance
  | .addByte x kk => (m.setRegister x (m.v[x] + kk)).advance
  | .arith op x y => (m.executeArith op x y).advance
  | .setIndex a => { m with index := UInt16.ofNat a }.advance
  | .jumpOffset x a =>
    let r := if m.dialect.has Dialect.jumpsByX then m.v[x] else m.v[0]
    m.goTo (UInt16.ofNat ((a.val + r.toNat) % 0x1000))
  | .random x kk =>
    let (n, source) := m.random.next
    ({ m with random := source }.setRegister x (UInt8.ofInt n &&& kk)).advance
  | .draw x y rows =>
    let sprite := m.memory.slice m.index.toNat rows.val
    let (screen, hit) := m.screen.draw m.v[x].toNat m.v[y].toNat sprite
    ({ m with screen := screen }.setRegister flagRegister (if hit then 1 else 0)).advance
  | .skipIfKey x => m.advanceOver (m.keypad.isDown (m.keyIn x))
  | .skipUnlessKey x => m.advanceOver !(m.keypad.isDown (m.keyIn x))
  | .readDelay x => (m.setRegister x m.timers.delay).advance
  | .waitKey x =>
    match m.keypad.lowest? with
    | none => m
    | some key => (m.setRegister x (UInt8.ofNat key)).advance
  | .setDelay x => { m with timers := { m.timers with delay := m.v[x] } }.advance
  | .setSound x => { m with timers := { m.timers with sound := m.v[x] } }.advance
  | .addIndex x =>
    { m with index := UInt16.ofNat ((m.index.toNat + m.v[x].toNat) % 0x1000) }.advance
  | .pointToGlyph x => { m with index := UInt16.ofNat (Glyph.address m.v[x].toNat) }.advance
  | .storeDecimal x =>
    let b := m.v[x]
    { m with memory := m.memory.store m.index.toNat [b / 100, b / 10 % 10, b % 10] }.advance
  | .storeRegisters x =>
    { m with
      memory := m.memory.store m.index.toNat (m.v.toList.take (x.val + 1))
      index := m.indexAfter (x.val + 1) }.advance
  | .loadRegisters x =>
    { m with
      v := Vector.ofFn fun r ↦ if r ≤ x then m.memory.read (m.index.toNat + r.val : Nat) else m.v[r]
      index := m.indexAfter (x.val + 1) }.advance

/-- One step. A machine without a program does nothing, and one that cannot execute the word at
`pc` stays as it is. -/
def step (m : Machine) : Machine × Outcome :=
  if !m.running then (m, .noProgram)
  else
    match m.fetch? with
    | none => (m, .outOfBounds m.pc.toNat m.pc.toNat)
    | some w =>
      match Instruction.decode? w with
      | none => (m, .invalidWord w.toNat m.pc.toNat)
      | some i =>
        match m.fault? i with
        | some o => (m, o)
        | none => (m.execute i, .success)

def upcoming? (m : Machine) : Option (UInt16 × UInt16) :=
  if m.running then m.fetch?.map (m.pc, ·) else none

def atSelfJump (m : Machine) : Bool :=
  m.fetch? == some (UInt16.ofNat (0x1000 + m.pc.toNat % 0x1000))

end Machine

end Chip8
