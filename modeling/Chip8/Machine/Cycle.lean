import Chip8.Machine.Step

namespace Chip8

/-- A machine in the middle of a step, with the addresses that were read or written and the values that
`pc` and the index moved on to, before any bit of them is cut off. -/
structure Cycle where
  machine : Machine
  addresses : List Int
  counts : List Nat

namespace Cycle

/-- A part of a step. What was done before a fault stays done. -/
abbrev Action := EStateM Outcome Cycle

def look {α : Type} (f : Machine → α) : Action α := do
  let c ← get
  return f c.machine

def change (f : Machine → Machine) : Action Unit := modify fun c ↦ { c with machine := f c.machine }

def access (as : List Int) : Action Unit := modify fun c ↦ { c with addresses := as ++ c.addresses }

def read (a : Int) : Action UInt8 := do
  access [a]
  look (·.memory.read a)

def write (a : Int) (b : UInt8) : Action Unit := do
  access [a]
  change fun m ↦ { m with memory := m.memory.write a b }

def readRange (a len : Nat) : Action (List UInt8) := do
  access ((List.range len).map fun k ↦ (a + k : Nat))
  look (·.memory.slice a len)

def count (n : Nat) : Action Unit := modify fun c ↦ { c with counts := n :: c.counts }

def movePc (n : Nat) : Action Unit := do
  let pc ← look (·.pc.toNat)
  count (pc + n)
  change (·.goTo (UInt16.ofNat (pc + n)))

def moveIndex (n : Nat) : Action Unit := do
  if ← look (·.dialect.has Dialect.movesIndex) then
    let index ← look (·.index.toNat)
    count (index + n)
    change fun m ↦ { m with index := UInt16.ofNat (index + n) }

def skipIf (p : Machine → Bool) : Action Unit := do
  if ← look p then movePc 2

def require (pc : UInt16) (len : Nat) : Action Unit := do
  let index ← look (·.index.toNat)
  unless Memory.inBounds index len do throw (.outOfBounds pc.toNat index)

def storeFrom (a : Nat) : (n r : Nat) → Action Unit
  | 0, _ => return
  | n + 1, r => do
    write (a + r : Nat) (← look (·.register (lowDigit r)))
    storeFrom a n (r + 1)

def loadFrom (a : Nat) : (n r : Nat) → Action Unit
  | 0, _ => return
  | n + 1, r => do
    let b ← read (a + r : Nat)
    change (·.setRegister (lowDigit r) b)
    loadFrom a n (r + 1)

open Machine in
def perform (pc : UInt16) : Instruction → Action Unit
  | .clearScreen => change fun m ↦ { m with screen := m.screen.clear }
  | .ret => do
    match ← look (·.stack) with
    | [] => throw (.stackEmpty pc.toNat)
    | a :: rest =>
      change fun m ↦ { m with stack := rest }
      change (·.goTo a)
  | .jump a => change (·.goTo (UInt16.ofNat a))
  | .call a => do
    if stackLimit ≤ (← look (·.stack)).length then throw (.stackOverflow pc.toNat)
    change fun m ↦ { m with stack := m.pc :: m.stack }
    change (·.goTo (UInt16.ofNat a))
  | .skipIfByte x kk => skipIf fun m ↦ m.register x == kk
  | .skipUnlessByte x kk => skipIf fun m ↦ m.register x != kk
  | .skipIfEqual x y => skipIf fun m ↦ m.register x == m.register y
  | .skipUnlessEqual x y => skipIf fun m ↦ m.register x != m.register y
  | .setByte x kk => change (·.setRegister x kk)
  | .addByte x kk => change fun m ↦ m.setRegister x (m.register x + kk)
  | .arith op x y => change (·.executeArith op x y)
  | .setIndex a => change fun m ↦ { m with index := UInt16.ofNat a }
  | .jumpOffset x a => do
    let r ← look fun m ↦ if m.dialect.has Dialect.jumpsByX then m.register x else m.register 0
    change (·.goTo (UInt16.ofNat ((a.val + r.toNat) % 0x1000)))
  | .random x kk => do
    let (n, source) ← look (·.random.next)
    change fun m ↦ { m with random := source }
    change (·.setRegister x (UInt8.ofInt n &&& kk))
  | .draw x y rows => do
    require pc rows.val
    let sprite ← readRange (← look (·.index.toNat)) rows.val
    let (screen, hit) ← look fun m ↦ m.screen.draw (m.register x).toNat (m.register y).toNat sprite
    change fun m ↦ { m with screen := screen }
    change (·.setRegister flagRegister (if hit then 1 else 0))
  | .skipIfKey x => skipIf fun m ↦ m.keypad.isDown (m.keyIn x)
  | .skipUnlessKey x => skipIf fun m ↦ !(m.keypad.isDown (m.keyIn x))
  | .readDelay x => change fun m ↦ m.setRegister x m.timers.delay
  | .waitKey x => do
    match ← look (·.keypad.lowest?) with
    | none => change (·.goTo pc)
    | some key => change (·.setRegister x (UInt8.ofNat key))
  | .setDelay x => change fun m ↦ { m with timers := { m.timers with delay := m.register x } }
  | .setSound x => change fun m ↦ { m with timers := { m.timers with sound := m.register x } }
  | .addIndex x =>
    change fun m ↦
      { m with index := UInt16.ofNat ((m.index.toNat + (m.register x).toNat) % 0x1000) }
  | .pointToGlyph x =>
    change fun m ↦ { m with index := UInt16.ofNat (Glyph.address (m.register x).toNat) }
  | .storeDecimal x => do
    require pc 3
    let a ← look (·.index.toNat)
    let b ← look (·.register x)
    write a (b / 100)
    write (a + 1 : Nat) (b / 10 % 10)
    write (a + 2 : Nat) (b % 10)
  | .storeRegisters x => do
    require pc (x.val + 1)
    storeFrom (← look (·.index.toNat)) (x.val + 1) 0
    moveIndex (x.val + 1)
  | .loadRegisters x => do
    require pc (x.val + 1)
    loadFrom (← look (·.index.toNat)) (x.val + 1) 0
    moveIndex (x.val + 1)

def fetch (pc : UInt16) : Action UInt16 := do
  unless Memory.inBounds pc.toNat 2 do throw (.outOfBounds pc.toNat pc.toNat)
  let high ← read pc.toNat
  let low ← read (pc.toNat + 1 : Nat)
  return UInt16.ofNat (0x100 * high.toNat + low.toNat)

/-- After a fault `pc` is back on the instruction. -/
def step : Action Unit := do
  unless ← look (·.running) do throw .noProgram
  let pc ← look (·.pc)
  let w ← fetch pc
  match Instruction.decode? w with
  | none => throw (.invalidWord w.toNat pc.toNat)
  | some i =>
    movePc 2
    try
      perform pc i
    catch o =>
      change (·.goTo pc)
      throw o

end Cycle

def Machine.cycle (m : Machine) : Cycle × Outcome :=
  match Cycle.step ⟨m, [], []⟩ with
  | .ok _ c => (c, .success)
  | .error o c => (c, o)

end Chip8
