import Chip8.Instruction
import Chip8.Text.Blank
import Chip8.Text.Hex

namespace Chip8

def Arith.mnemonic : Arith → String
  | .copy => "LD"
  | .or => "OR"
  | .and => "AND"
  | .xor => "XOR"
  | .add => "ADD"
  | .sub => "SUB"
  | .shiftRight => "SHR"
  | .subFrom => "SUBN"
  | .shiftLeft => "SHL"

namespace Instruction

def mnemonic : Instruction → String
  | .clearScreen => "CLS"
  | .ret => "RET"
  | .jump _ | .jumpOffset .. => "JP"
  | .call _ => "CALL"
  | .skipIfByte .. | .skipIfEqual .. => "SE"
  | .skipUnlessByte .. | .skipUnlessEqual .. => "SNE"
  | .addByte .. | .addIndex _ => "ADD"
  | .arith op .. => op.mnemonic
  | .random .. => "RND"
  | .draw .. => "DRW"
  | .skipIfKey _ => "SKP"
  | .skipUnlessKey _ => "SKNP"
  | .setByte .. | .setIndex _ | .readDelay _ | .waitKey _ | .setDelay _ | .setSound _
  | .pointToGlyph _ | .storeDecimal _ | .storeRegisters _ | .loadRegisters _ => "LD"

private def reg (r : Register) : String := String.ofList ('V' :: Hex.digits r)

private def imm (kk : UInt8) : String := "0x" ++ Hex.byte kk.toNat

private def addr (a : Address) : String := "0x" ++ Hex.address a.val

private def pair (a b : String) : String := a ++ ", " ++ b

def operand : Instruction → String
  | .clearScreen | .ret => ""
  | .jump a | .call a => addr a
  | .skipIfByte x kk | .skipUnlessByte x kk | .setByte x kk | .addByte x kk | .random x kk =>
    pair (reg x) (imm kk)
  | .skipIfEqual x y | .skipUnlessEqual x y | .arith _ x y => pair (reg x) (reg y)
  | .setIndex a => pair "I" (addr a)
  | .jumpOffset _ a => pair "V0" (addr a)
  | .draw x y n => pair (reg x) (pair (reg y) (toString n.val))
  | .skipIfKey x | .skipUnlessKey x => reg x
  | .readDelay x => pair (reg x) "DT"
  | .waitKey x => pair (reg x) "K"
  | .setDelay x => pair "DT" (reg x)
  | .setSound x => pair "ST" (reg x)
  | .addIndex x => pair "I" (reg x)
  | .pointToGlyph x => pair "F" (reg x)
  | .storeDecimal x => pair "B" (reg x)
  | .storeRegisters x => pair "[I]" (reg x)
  | .loadRegisters x => pair (reg x) "[I]"

end Instruction

structure Listing where
  word : UInt16
  mnemonic : String
  operand : String
  deriving DecidableEq, Repr

namespace Listing

def ofWord (w : UInt16) : Listing :=
  match Instruction.decode? w with
  | none => ⟨w, "???", ""⟩
  | some i => ⟨w, i.mnemonic, i.operand⟩

def text (l : Listing) : String :=
  Text.trim (if l.operand.isEmpty then l.mnemonic else l.mnemonic ++ " " ++ l.operand)

end Listing

end Chip8
