import Chip8.Instruction.Encoding
import Chip8.Instruction.Listing
import Chip8.Number.Decimal
import Chip8.Text.Fields
import Chip8.Text.HexReading

namespace Chip8

inductive Operand
  | register (r : Register)
  | byte (kk : UInt8)
  | address (a : Address)
  | rows (n : Fin 16)
  | index
  | memory
  | delay
  | sound
  | key
  | glyph
  | decimal
  deriving DecidableEq, Repr

namespace Operand

def text : Operand → String
  | .register r => String.ofList ('V' :: Hex.digits r)
  | .byte kk => "0x" ++ Hex.byte kk.toNat
  | .address a => "0x" ++ Hex.address a.val
  | .rows n => toString n.val
  | .index => "I"
  | .memory => "[I]"
  | .delay => "DT"
  | .sound => "ST"
  | .key => "K"
  | .glyph => "F"
  | .decimal => "B"

def ofHex? (cs : List Char) : Option Operand :=
  match cs.length with
  | 2 => (Hex.read? cs).map fun n ↦ .byte (UInt8.ofNat n)
  | 3 => (Hex.read? cs).map fun n ↦ .address (Fin.ofNat 4096 n)
  | _ => none

def ofDecimal? (cs : List Char) : Option Operand :=
  if !cs.isEmpty && cs.all Char.isDigit then
    if h : Decimal.valueOf cs < 16 then some (.rows ⟨Decimal.valueOf cs, h⟩) else none
  else none

def read? : List Char → Option Operand
  | ['I'] => some .index
  | ['[', 'I', ']'] => some .memory
  | ['D', 'T'] => some .delay
  | ['S', 'T'] => some .sound
  | ['K'] => some .key
  | ['F'] => some .glyph
  | ['B'] => some .decimal
  | ['V', c] => (Hex.read? [c]).map fun n ↦ .register (lowDigit n)
  | '0' :: 'x' :: cs => ofHex? cs
  | cs => ofDecimal? cs

end Operand

def Arith.ofMnemonic? : String → Option Arith
  | "LD" => some .copy
  | "OR" => some .or
  | "AND" => some .and
  | "XOR" => some .xor
  | "ADD" => some .add
  | "SUB" => some .sub
  | "SHR" => some .shiftRight
  | "SUBN" => some .subFrom
  | "SHL" => some .shiftLeft
  | _ => none

namespace Instruction

def operands : Instruction → List Operand
  | .clearScreen | .ret => []
  | .jump a | .call a => [.address a]
  | .skipIfByte x kk | .skipUnlessByte x kk | .setByte x kk | .addByte x kk | .random x kk =>
    [.register x, .byte kk]
  | .skipIfEqual x y | .skipUnlessEqual x y | .arith _ x y => [.register x, .register y]
  | .setIndex a => [.index, .address a]
  | .jumpOffset _ a => [.register (lowDigit 0), .address a]
  | .draw x y n => [.register x, .register y, .rows n]
  | .skipIfKey x | .skipUnlessKey x => [.register x]
  | .readDelay x => [.register x, .delay]
  | .waitKey x => [.register x, .key]
  | .setDelay x => [.delay, .register x]
  | .setSound x => [.sound, .register x]
  | .addIndex x => [.index, .register x]
  | .pointToGlyph x => [.glyph, .register x]
  | .storeDecimal x => [.decimal, .register x]
  | .storeRegisters x => [.memory, .register x]
  | .loadRegisters x => [.register x, .memory]

def ofTransfer? : List Operand → Option Instruction
  | [.index, .address a] => some (.setIndex a)
  | [.register x, .delay] => some (.readDelay x)
  | [.register x, .key] => some (.waitKey x)
  | [.delay, .register x] => some (.setDelay x)
  | [.sound, .register x] => some (.setSound x)
  | [.glyph, .register x] => some (.pointToGlyph x)
  | [.decimal, .register x] => some (.storeDecimal x)
  | [.memory, .register x] => some (.storeRegisters x)
  | [.register x, .memory] => some (.loadRegisters x)
  | _ => none

/-- The instruction with the operands. A jump with an offset takes its register from the address,
since the word has both in the same digit. -/
def ofOperands? (mnemonic : String) : List Operand → Option Instruction
  | [] =>
    match mnemonic with
    | "CLS" => some .clearScreen
    | "RET" => some .ret
    | _ => none
  | [.address a] =>
    match mnemonic with
    | "JP" => some (.jump a)
    | "CALL" => some (.call a)
    | _ => none
  | [.register x] =>
    match mnemonic with
    | "SKP" => some (.skipIfKey x)
    | "SKNP" => some (.skipUnlessKey x)
    | _ => none
  | [.register x, .byte kk] =>
    match mnemonic with
    | "SE" => some (.skipIfByte x kk)
    | "SNE" => some (.skipUnlessByte x kk)
    | "LD" => some (.setByte x kk)
    | "ADD" => some (.addByte x kk)
    | "RND" => some (.random x kk)
    | _ => none
  | [.register x, .register y] =>
    match mnemonic with
    | "SE" => some (.skipIfEqual x y)
    | "SNE" => some (.skipUnlessEqual x y)
    | _ => (Arith.ofMnemonic? mnemonic).map (.arith · x y)
  | [.register x, .address a] =>
    if mnemonic = "JP" ∧ x.val = 0 then some (.jumpOffset (lowDigit (a.val / 0x100)) a) else none
  | [.register x, .register y, .rows n] =>
    if mnemonic = "DRW" then some (.draw x y n) else none
  | [.index, .register x] => if mnemonic = "ADD" then some (.addIndex x) else none
  | os => if mnemonic = "LD" then ofTransfer? os else none

def read? (text : String) : Option Instruction :=
  match Text.fields text.toList with
  | [] => none
  | name :: fs => (fs.mapM Operand.read?).bind (ofOperands? (String.ofList name))

end Instruction

def Listing.assemble? (text : String) : Option UInt16 :=
  (Instruction.read? text).map fun i ↦ UInt16.ofNat i.encode

end Chip8
