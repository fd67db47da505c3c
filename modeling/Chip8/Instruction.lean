import Chip8.Digit

namespace Chip8

abbrev Register := Fin 16

abbrev Address := Fin 4096

namespace Word

def x (w : UInt16) : Register := lowDigit (w.toNat / 0x100)

def y (w : UInt16) : Register := lowDigit (w.toNat / 0x10)

def low4 (w : UInt16) : Fin 16 := lowDigit w.toNat

def low8 (w : UInt16) : UInt8 := UInt8.ofNat w.toNat

def low12 (w : UInt16) : Address := ⟨w.toNat % 4096, Nat.mod_lt _ (by decide)⟩

theorem toNat_low8 (w : UInt16) : (low8 w).toNat = w.toNat % 0x100 := UInt8.toNat_ofNat'

end Word

inductive Arith
  | copy | or | and | xor | add | sub | shiftRight | subFrom | shiftLeft
  deriving DecidableEq, Repr

def Arith.code : Arith → Nat
  | .copy => 0x0
  | .or => 0x1
  | .and => 0x2
  | .xor => 0x3
  | .add => 0x4
  | .sub => 0x5
  | .shiftRight => 0x6
  | .subFrom => 0x7
  | .shiftLeft => 0xE

def Arith.ofCode? : Nat → Option Arith
  | 0x0 => some .copy
  | 0x1 => some .or
  | 0x2 => some .and
  | 0x3 => some .xor
  | 0x4 => some .add
  | 0x5 => some .sub
  | 0x6 => some .shiftRight
  | 0x7 => some .subFrom
  | 0xE => some .shiftLeft
  | _ => none

inductive Instruction
  | clearScreen
  | ret
  | jump (target : Address)
  | call (target : Address)
  | skipIfByte (x : Register) (kk : UInt8)
  | skipUnlessByte (x : Register) (kk : UInt8)
  | skipIfEqual (x y : Register)
  | skipUnlessEqual (x y : Register)
  | setByte (x : Register) (kk : UInt8)
  | addByte (x : Register) (kk : UInt8)
  | arith (op : Arith) (x y : Register)
  | setIndex (target : Address)
  | jumpOffset (x : Register) (target : Address)
  | random (x : Register) (kk : UInt8)
  | draw (x y : Register) (rows : Fin 16)
  | skipIfKey (x : Register)
  | skipUnlessKey (x : Register)
  | readDelay (x : Register)
  | waitKey (x : Register)
  | setDelay (x : Register)
  | setSound (x : Register)
  | addIndex (x : Register)
  | pointToGlyph (x : Register)
  | storeDecimal (x : Register)
  | storeRegisters (x : Register)
  | loadRegisters (x : Register)
  deriving DecidableEq, Repr

namespace Instruction

/-- The instruction that a word stands for. The machine-code calls `0nnn` are none. -/
def decode? (w : UInt16) : Option Instruction :=
  let x := Word.x w
  let y := Word.y w
  match w.toNat / 0x1000 with
  | 0x0 =>
    if w = 0x00E0 then some .clearScreen
    else if w = 0x00EE then some .ret
    else none
  | 0x1 => some (.jump (Word.low12 w))
  | 0x2 => some (.call (Word.low12 w))
  | 0x3 => some (.skipIfByte x (Word.low8 w))
  | 0x4 => some (.skipUnlessByte x (Word.low8 w))
  | 0x5 => if (Word.low4 w).val = 0 then some (.skipIfEqual x y) else none
  | 0x6 => some (.setByte x (Word.low8 w))
  | 0x7 => some (.addByte x (Word.low8 w))
  | 0x8 => (Arith.ofCode? (Word.low4 w)).map (.arith · x y)
  | 0x9 => if (Word.low4 w).val = 0 then some (.skipUnlessEqual x y) else none
  | 0xA => some (.setIndex (Word.low12 w))
  | 0xB => some (.jumpOffset x (Word.low12 w))
  | 0xC => some (.random x (Word.low8 w))
  | 0xD => some (.draw x y (Word.low4 w))
  | 0xE =>
    match (Word.low8 w).toNat with
    | 0x9E => some (.skipIfKey x)
    | 0xA1 => some (.skipUnlessKey x)
    | _ => none
  | 0xF =>
    match (Word.low8 w).toNat with
    | 0x07 => some (.readDelay x)
    | 0x0A => some (.waitKey x)
    | 0x15 => some (.setDelay x)
    | 0x18 => some (.setSound x)
    | 0x1E => some (.addIndex x)
    | 0x29 => some (.pointToGlyph x)
    | 0x33 => some (.storeDecimal x)
    | 0x55 => some (.storeRegisters x)
    | 0x65 => some (.loadRegisters x)
    | _ => none
  | _ => none

end Instruction

end Chip8
