import Chip8.Instruction.Assembly
import Chip8.Proofs.Machine.Control
import Chip8.Proofs.Machine.Faults
import Chip8.Proofs.Machine.Loading

namespace Chip8

namespace Operand

open Text

theorem isSeparator_of_isDigit {c : Char} (h : Hex.isDigit c = true) : isSeparator c = false := by
  have hc : c ≠ ',' := by
    rintro rfl
    cases h
  simp only [Hex.isDigit, Bool.or_eq_true, Bool.and_eq_true, decide_eq_true_eq] at h
  simp only [isSeparator, isBlank, Bool.or_eq_false_iff, Bool.and_eq_false_iff, beq_eq_false_iff_ne,
    decide_eq_false_iff_not]
  refine ⟨?_, hc⟩
  omega

theorem toList_byte (kk : UInt8) :
    (byte kk).text.toList = '0' :: 'x' :: (Hex.padded 2 (Hex.digits kk.toNat)).toList := by
  have hk : ((kk.toNat : Int) % 0x100).toNat = kk.toNat := by
    have := kk.toNat_lt
    omega
  rw [text, Hex.byte, hk, String.toList_append]
  rfl

theorem toList_address (a : Address) :
    (address a).text.toList = '0' :: 'x' :: (Hex.padded 3 (Hex.digits a.val)).toList := by
  rw [text, Hex.address, if_neg (by omega), Int.natAbs_natCast, String.toList_append]
  rfl

theorem isField_hex {k : Nat} (n : Nat) :
    IsField ('0' :: 'x' :: (Hex.padded k (Hex.digits n)).toList) where
  ne_nil := List.cons_ne_nil _ _
  whole := by
    intro c hc
    rcases List.mem_cons.mp hc with rfl | hc
    · rfl
    · rcases List.mem_cons.mp hc with rfl | hc
      · rfl
      · exact isSeparator_of_isDigit (Hex.isDigit_of_mem_padded hc)

theorem isField_text (o : Operand) : IsField o.text.toList := by
  cases o with
  | byte kk => exact toList_byte kk ▸ isField_hex _
  | address a => exact toList_address a ▸ isField_hex _
  | register r => revert r; decide
  | rows n => revert n; decide
  | _ => decide

theorem read?_hex (cs : List Char) : read? ('0' :: 'x' :: cs) = ofHex? cs := rfl

theorem read?_text (o : Operand) : read? o.text.toList = some o := by
  cases o with
  | byte kk =>
    have hl := Hex.length_padded (by decide : 0 < 2) kk.toNat_lt
    rw [toList_byte, read?_hex, ofHex?, hl]
    simp [Hex.read?_padded]
  | address a =>
    have hl := Hex.length_padded (by decide : 0 < 3) a.isLt
    rw [toList_address, read?_hex, ofHex?, hl]
    simp [Hex.read?_padded]
  | register r => revert r; decide
  | rows n => revert n; decide
  | _ => rfl

end Operand

namespace Listing

open Text

theorem fields_text (w : UInt16) {name : String} {os : List String} (hn : IsField name.toList)
    (ho : ∀ o ∈ os, IsField o.toList) :
    fields (text ⟨w, name, ", ".intercalate os⟩).toList = name.toList :: os.map String.toList := by
  have hos : fields (", ".intercalate os).toList = os.map String.toList := by
    rw [String.toList_intercalate]
    exact fields_intercalate rfl (List.forall_mem_singleton.mpr rfl) (List.forall_mem_map.mpr ho)
  rw [text, fields_trim]
  split
  · next he =>
    have he : ", ".intercalate os = "" := String.isEmpty_iff.mp he
    rw [he] at hos
    rw [hn.fields_eq, ← hos]
    rfl
  · rw [String.toList_append, String.toList_append, List.append_assoc]
    calc fields (name.toList ++ ' ' :: (", ".intercalate os).toList)
        = fields name.toList ++ fields (", ".intercalate os).toList := fields_append_cons rfl _ _
      _ = name.toList :: os.map String.toList := by
        rw [hn.fields_eq, hos, List.singleton_append]

end Listing

namespace Instruction

open Text

variable {w : UInt16} {i : Instruction}

theorem isField_mnemonic (i : Instruction) : IsField i.mnemonic.toList := by
  cases i with
  | arith op x y => cases op <;> simp only [mnemonic, Arith.mnemonic] <;> decide
  | _ => simp only [mnemonic]; decide

theorem mnemonic_ne (i : Instruction) : i.mnemonic ≠ "???" := by
  cases i with
  | arith op x y => cases op <;> simp [mnemonic, Arith.mnemonic]
  | _ => simp [mnemonic]

theorem operand_eq (i : Instruction) :
    i.operand = ", ".intercalate (i.operands.map Operand.text) := by
  cases i with
  | draw x y n =>
    -- The only line with a second comma.
    have assoc (a b c : String) : a ++ ", " ++ (b ++ ", " ++ c) = a ++ ", " ++ b ++ ", " ++ c := by
      simp only [String.append_assoc]
    exact assoc (Operand.register x).text (Operand.register y).text (Operand.rows n).text
  | _ => rfl

theorem mapM_read?_text (os : List Operand) :
    ((os.map Operand.text).map String.toList).mapM Operand.read? = some os := by
  induction os with
  | nil => rfl
  | cons o os ih =>
    rw [List.map_cons, List.map_cons, List.mapM_cons, Operand.read?_text, ih]
    rfl

theorem ofOperands?_eq (h : decode? w = some i) : ofOperands? i.mnemonic i.operands = some i := by
  cases i with
  | arith op x y => cases op <;> rfl
  | jumpOffset x a =>
    have hc := encode_of_decode? h
    simp only [encode] at hc
    rw [Machine.decode?_jumpOffset (by omega)] at h
    cases h
    have hx : lowDigit ((Word.low12 w).val / 0x100) = Word.x w := by
      have h₁₂ : (Word.low12 w).val = w.toNat % 0x1000 := rfl
      refine Fin.ext ?_
      simp only [Word.x, lowDigit]
      omega
    exact congrArg (fun x ↦ some (jumpOffset x (Word.low12 w))) hx
  | _ => rfl

theorem read?_ofWord (w : UInt16) : read? (Listing.ofWord w).text = decode? w := by
  rw [Listing.ofWord]
  cases h : decode? w with
  | none =>
    have hf := @Listing.fields_text w "???" [] (by decide) (by simp)
    change read? (Listing.text ⟨w, "???", ", ".intercalate []⟩) = none
    rw [read?, hf]
    rfl
  | some i =>
    have ho : ∀ o ∈ i.operands.map Operand.text, IsField o.toList := by
      intro o ho
      obtain ⟨o, -, rfl⟩ := List.mem_map.mp ho
      exact o.isField_text
    have hf := Listing.fields_text w (isField_mnemonic i) ho
    rw [← operand_eq] at hf
    simp only [read?, hf, mapM_read?_text, Option.bind_some, String.ofList_toList, ofOperands?_eq h]

theorem assemble?_ofWord (h : decode? w = some i) :
    Listing.assemble? (Listing.ofWord w).text = some w := by
  rw [Listing.assemble?, read?_ofWord, h, Option.map_some, encode_of_decode? h, UInt16.ofNat_toNat]

theorem mnemonic_ofWord_eq_iff (w : UInt16) :
    (Listing.ofWord w).mnemonic = "???" ↔ decode? w = none := by
  rw [Listing.ofWord]
  cases decode? w with
  | none => simp
  | some i => simp [i.mnemonic_ne]

end Instruction

namespace Word

def bytes (w : UInt16) : Image := #[UInt8.ofNat (w.toNat / 0x100), low8 w]

theorem size_bytes (w : UInt16) : (bytes w).size = 2 := rfl

theorem toNat_ofInt (n : Int) : ((UInt16.ofInt n).toNat : Int) = n % 0x10000 := by
  rw [UInt16.ofInt, UInt16.toNat_ofNat']
  omega

end Word

namespace Machine

variable {m : Machine} {w : UInt16}

structure Faces (m : Machine) (w : UInt16) : Prop where
  running : m.running = true
  within : m.pc.toNat ≤ 0xFFE
  word : w.toNat = 0x100 * (m.memory.read m.pc.toNat).toNat +
    (m.memory.read (m.pc.toNat + 1 : Nat)).toNat

theorem Faces.fetch?_eq (h : m.Faces w) : m.fetch? = some w := fetch?_of_word h.within h.word

theorem Faces.step_of_none (h : m.Faces w) (hd : Instruction.decode? w = none) :
    m.step.2 = .invalidWord w.toNat m.pc.toNat := by
  rw [(StepsTo.noInstruction h.running h.fetch?_eq hd).step_eq]

theorem Faces.decode?_eq_none {n pc : Int} (h : m.Faces w) (hs : m.step.2 = .invalidWord n pc) :
    Instruction.decode? w = none := by
  have ht := m.stepsTo
  rw [hs] at ht
  generalize m.step.1 = m' at ht
  cases ht with
  | noInstruction hr hw hi =>
    rw [h.fetch?_eq] at hw
    cases hw
    exact hi
  | @fault _ i _ hr hw hi ho =>
    have hf := m.faultOf i
    rw [ho] at hf
    cases hf

theorem faces_start (m : Machine) (w : UInt16) : (m.start (Word.bytes w)).Faces w := by
  have hs := m.started_start (show (Word.bytes w).size ≤ Memory.programLimit by
    rw [Word.size_bytes]
    decide)
  have hp : (m.start (Word.bytes w)).pc.toNat = 0x200 := by
    rw [hs.pc]
    rfl
  refine ⟨hs.running, by omega, ?_⟩
  rw [hp, hs.program 0 Nat.two_pos, hs.program 1 Nat.one_lt_two]
  have hh : (UInt8.ofNat (w.toNat / 0x100)).toNat = w.toNat / 0x100 % 0x100 := UInt8.toNat_ofNat'
  have hw := w.toNat_lt
  have hl := Word.toNat_low8 w
  simp only [Word.bytes, List.getElem_toArray, List.getElem_cons_zero, List.getElem_cons_succ, hh, hl]
  omega

end Machine

namespace Instruction

variable {w v : UInt16}

/-- The word of a number is listed as `???` exactly when it is no instruction, which is when no
machine that has it at `pc` knows it. The line of any other word is read back as the instruction and
as the word, so two numbers with the same line differ by a multiple of `0x10000`. -/
theorem word_of_listing {n k : Int} (hw : w = UInt16.ofInt n) (hv : v = UInt16.ofInt k) :
    ((Listing.ofWord w).mnemonic = "???" ↔ decode? w = none) ∧
      (decode? w = none ↔
        ∀ m : Machine, m.Faces w → m.step.2 = .invalidWord w.toNat m.pc.toNat) ∧
      (∀ m : Machine, m.Faces w → ((∃ u pc, m.step.2 = .invalidWord u pc) ↔ decode? w = none)) ∧
      read? (Listing.ofWord w).text = decode? w ∧
      (∀ i, decode? w = some i →
        (i.encode : Int) = n % 0x10000 ∧ Listing.assemble? (Listing.ofWord w).text = some w) ∧
      (decode? w ≠ none → decode? v ≠ none → (Listing.ofWord w).text = (Listing.ofWord v).text →
        n % 0x10000 = k % 0x10000) := by
  subst hw hv
  refine ⟨mnemonic_ofWord_eq_iff _, ⟨fun h m hm ↦ hm.step_of_none h, fun h ↦ ?_⟩, fun m hm ↦ ⟨?_, ?_⟩,
    read?_ofWord _, fun i hi ↦ ⟨?_, assemble?_ofWord hi⟩, ?_⟩
  · have hm := Machine.faces_start (.new ⟨0⟩ (.cycle [])) (UInt16.ofInt n)
    exact hm.decode?_eq_none (h _ hm)
  · rintro ⟨u, pc, hs⟩
    exact hm.decode?_eq_none hs
  · intro h
    exact ⟨_, _, hm.step_of_none h⟩
  · rw [encode_of_decode? hi, Word.toNat_ofInt]
  · intro hw hv ht
    obtain ⟨i, hi⟩ := Option.ne_none_iff_exists'.mp hw
    obtain ⟨j, hj⟩ := Option.ne_none_iff_exists'.mp hv
    have h := assemble?_ofWord hi
    rw [ht, assemble?_ofWord hj, Option.some.injEq] at h
    rw [← Word.toNat_ofInt, ← Word.toNat_ofInt, show UInt16.ofInt k = UInt16.ofInt n from h]

/-- The register of a jump with an offset is not on its line, and is still read back. -/
theorem jump_offset_read_back :
    let m := (Machine.new ⟨0⟩ (.cycle [])).start (Word.bytes 0xFFFF)
    m.step.2 = .invalidWord 0xFFFF 0x200 ∧
      (Listing.ofWord 0xB312).text = "JP V0, 0x312" ∧
      read? "JP V0, 0x312" = some (.jumpOffset 3 0x312) ∧
      Listing.assemble? "JP V0, 0x312" = some 0xB312 ∧
      (0xB312 : Int) % 0x10000 = -0x4CEE % 0x10000 := by
  intro m
  have hm : m.Faces 0xFFFF := Machine.faces_start _ _
  have hd : decode? 0xFFFF = none := by decide +kernel
  have hi : decode? 0xB312 = some (.jumpOffset 3 0x312) := by decide +kernel
  have hs : decode? 0xB312 ≠ none := hi ▸ Option.some_ne_none _
  have hl : (Listing.ofWord 0xB312).text = "JP V0, 0x312" := by decide +kernel
  have hu : 0xFFFF = UInt16.ofInt (-1) := by decide
  have hw : 0xB312 = UInt16.ofInt 0xB312 := by decide
  have hv : 0xB312 = UInt16.ofInt (-0x4CEE) := by decide
  obtain ⟨-, hn, -⟩ := word_of_listing hu hu
  obtain ⟨-, -, -, hr, ha, he⟩ := word_of_listing hw hv
  obtain ⟨-, ha⟩ := ha _ hi
  rw [hl, hi] at hr
  rw [hl] at ha
  exact ⟨hn.mp hd m hm, hl, hr, ha, he hs hs rfl⟩

end Instruction

end Chip8
