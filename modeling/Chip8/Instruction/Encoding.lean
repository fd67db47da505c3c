import Chip8.Instruction

namespace Chip8

theorem Arith.code_of_ofCode? {n : Nat} {op : Arith} (h : ofCode? n = some op) : op.code = n := by
  unfold ofCode? at h
  split at h <;> cases h <;> rfl

theorem Arith.code_le (op : Arith) : op.code ≤ 0xE := by cases op <;> decide

namespace Instruction

def encode : Instruction → Nat
  | .clearScreen => 0x00E0
  | .ret => 0x00EE
  | .jump a => 0x1000 + a
  | .call a => 0x2000 + a
  | .skipIfByte x kk => 0x3000 + 0x100 * x + kk.toNat
  | .skipUnlessByte x kk => 0x4000 + 0x100 * x + kk.toNat
  | .skipIfEqual x y => 0x5000 + 0x100 * x + 0x10 * y
  | .skipUnlessEqual x y => 0x9000 + 0x100 * x + 0x10 * y
  | .setByte x kk => 0x6000 + 0x100 * x + kk.toNat
  | .addByte x kk => 0x7000 + 0x100 * x + kk.toNat
  | .arith op x y => 0x8000 + 0x100 * x + 0x10 * y + op.code
  | .setIndex a => 0xA000 + a
  | .jumpOffset _ a => 0xB000 + a
  | .random x kk => 0xC000 + 0x100 * x + kk.toNat
  | .draw x y rows => 0xD000 + 0x100 * x + 0x10 * y + rows
  | .skipIfKey x => 0xE09E + 0x100 * x
  | .skipUnlessKey x => 0xE0A1 + 0x100 * x
  | .readDelay x => 0xF007 + 0x100 * x
  | .waitKey x => 0xF00A + 0x100 * x
  | .setDelay x => 0xF015 + 0x100 * x
  | .setSound x => 0xF018 + 0x100 * x
  | .addIndex x => 0xF01E + 0x100 * x
  | .pointToGlyph x => 0xF029 + 0x100 * x
  | .storeDecimal x => 0xF033 + 0x100 * x
  | .storeRegisters x => 0xF055 + 0x100 * x
  | .loadRegisters x => 0xF065 + 0x100 * x

theorem encode_of_decode? {w : UInt16} {i : Instruction} (h : decode? w = some i) :
    i.encode = w.toNat := by
  have hx : (Word.x w).val = w.toNat / 0x100 % 0x10 := rfl
  have hy : (Word.y w).val = w.toNat / 0x10 % 0x10 := rfl
  have h₄ : (Word.low4 w).val = w.toNat % 0x10 := rfl
  have h₈ := Word.toNat_low8 w
  have h₁₂ : (Word.low12 w).val = w.toNat % 0x1000 := rfl
  unfold decode? at h
  dsimp only at h
  split at h
  case h_1 =>
    split at h
    · next hw =>
      cases h
      rw [hw]
      rfl
    · split at h
      · next hw =>
        cases h
        rw [hw]
        rfl
      · cases h
  case h_6 | h_10 =>
    split at h <;> cases h
    simp only [encode]
    omega
  case h_9 =>
    obtain ⟨op, ho, rfl⟩ := Option.map_eq_some_iff.mp h
    have hc := Arith.code_of_ofCode? ho
    simp only [encode]
    omega
  case h_15 | h_16 =>
    split at h <;> cases h <;> simp only [encode] <;> omega
  case h_17 => cases h
  all_goals
    cases h
    simp only [encode]
    omega

end Instruction

end Chip8
