import Chip8.Proofs.Instruction.Listings

namespace Chip8

namespace Operand

def width : Operand → Nat
  | .index | .key | .glyph | .decimal => 1
  | .register _ | .rows _ | .delay | .sound => 2
  | .memory => 3
  | .byte _ => 4
  | .address _ => 5

theorem length_text_le (o : Operand) : o.text.length ≤ o.width := by
  rw [← String.length_toList]
  cases o with
  | byte kk =>
    rw [toList_byte, List.length_cons, List.length_cons, Hex.length_padded (by decide) kk.toNat_lt]
    exact Nat.le_refl _
  | address a =>
    rw [toList_address, List.length_cons, List.length_cons, Hex.length_padded (by decide) a.isLt]
    exact Nat.le_refl _
  | register r => revert r; decide
  | rows n => revert n; decide
  | _ => decide

theorem colon_not_mem_text (o : Operand) : ':' ∉ o.text.toList := by
  have hex (k n : Nat) : ':' ∉ '0' :: 'x' :: (Hex.padded k (Hex.digits n)).toList := by
    rw [List.mem_cons, List.mem_cons]
    rintro (h | h | h)
    · cases h
    · cases h
    · cases Hex.isDigit_of_mem_padded h
  cases o with
  | byte kk => exact toList_byte kk ▸ hex _ _
  | address a => exact toList_address a ▸ hex _ _
  | register r => revert r; decide
  | rows n => revert n; decide
  | _ => decide

def widths : List Operand → Nat
  | [] => 0
  | o :: os => o.width + 2 + widths os

theorem length_intercalate_le (os : List Operand) :
    (", ".intercalate (os.map text)).length ≤ widths os - 2 := by
  induction os with
  | nil => exact Nat.zero_le _
  | cons o os ih =>
    have ho := o.length_text_le
    cases os with
    | nil => exact ho
    | cons p os =>
      have hs : ", ".length = 2 := rfl
      rw [List.map_cons, List.map_cons, String.intercalate_cons_cons, ← List.map_cons, String.length_append,
        String.length_append, hs]
      simp only [widths] at ih ⊢
      omega

end Operand

theorem Instruction.length_add_length_operand_le (i : Instruction) :
    i.mnemonic.length + 1 + i.operand.length ≤ 14 := by
  have ho := Operand.length_intercalate_le i.operands
  have hw : i.mnemonic.length + 1 + (Operand.widths i.operands - 2) ≤ 14 := by
    cases i with
    | arith op x y =>
      simp only [mnemonic, operands, Operand.widths, Operand.width]
      cases op <;> decide
    | _ =>
      simp only [mnemonic, operands, Operand.widths, Operand.width]
      decide
  rw [← i.operand_eq] at ho
  omega

theorem Instruction.colon_not_mem_mnemonic (i : Instruction) : ':' ∉ i.mnemonic.toList := by
  cases i with
  | arith op x y => cases op <;> simp only [mnemonic, Arith.mnemonic] <;> decide
  | _ => simp only [mnemonic]; decide

theorem Instruction.colon_not_mem_operand (i : Instruction) : ':' ∉ i.operand.toList := by
  rw [operand_eq, String.toList_intercalate]
  refine Text.not_mem_intercalate (by decide) ?_
  simp only [List.forall_mem_map]
  exact fun o _ ↦ o.colon_not_mem_text

theorem Text.sublist_trim (s : String) : (trim s).toList.Sublist s.toList := by
  rw [trim, String.toList_ofList, trimEnd, ← List.reverse_sublist, List.reverse_reverse]
  exact (List.dropWhile_sublist _).trans (List.reverse_sublist.mpr (List.dropWhile_sublist _))

namespace Listing

theorem text_sublist (l : Listing) :
    l.text.toList.Sublist (l.mnemonic.toList ++ ' ' :: l.operand.toList) := by
  refine (Text.sublist_trim _).trans ?_
  split
  · exact List.sublist_append_left _ _
  · rw [String.toList_append, String.toList_append, List.append_assoc]
    exact List.Sublist.refl _

theorem length_text_le (w : UInt16) : (ofWord w).text.length ≤ 14 := by
  rw [← String.length_toList]
  refine Nat.le_trans (ofWord w).text_sublist.length_le ?_
  rw [List.length_append, List.length_cons, String.length_toList, String.length_toList, ofWord]
  cases Instruction.decode? w with
  | none => exact (by decide : "???".length + ("".length + 1) ≤ 14)
  | some i =>
    have := i.length_add_length_operand_le
    simp only
    omega

theorem colon_not_mem_text (w : UInt16) : ':' ∉ (ofWord w).text.toList := by
  refine fun h ↦ absurd ((ofWord w).text_sublist.mem h) ?_
  rw [List.mem_append, List.mem_cons, not_or, not_or, ofWord]
  cases Instruction.decode? w with
  | none => exact (by decide : ':' ∉ "???".toList ∧ ':' ≠ ' ' ∧ ':' ∉ "".toList)
  | some i => exact ⟨i.colon_not_mem_mnemonic, by decide, i.colon_not_mem_operand⟩

end Listing

end Chip8
