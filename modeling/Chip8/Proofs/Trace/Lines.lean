import Chip8.Proofs.Instruction.Texts
import Chip8.Proofs.Number.Notation
import Chip8.Trace

namespace Chip8

namespace Trace

variable {pc pc' word word' : Int} {s s' : Snapshot} {v v' : List Int}

section Reading

theorem length_word (n : Int) : (Hex.word n).toList.length = 4 :=
  Hex.length_padded (by decide) (by rw [Nat.pow_eq]; omega)

theorem blank_not_mem_address (n : Int) : ' ' ∉ (Hex.address n).toList :=
  Hex.not_mem_address rfl (by decide)

theorem exists_instructionPart_eq (pc word : Int) : ∃ rest, (instructionPart pc word).toList =
    (Hex.address pc).toList ++ ' ' :: ' ' :: ((Hex.word word).toList ++ rest) := by
  have two : "  ".toList = [' ', ' '] := rfl
  simp only [instructionPart, String.toList_append, List.append_assoc, two, List.cons_append,
    List.nil_append]
  exact ⟨_, rfl⟩

theorem instructionPart_congr (h : word % 0x10000 = word' % 0x10000) :
    instructionPart pc word = instructionPart pc word' := by
  have hw : UInt16.ofInt word = UInt16.ofInt word' := by
    refine UInt16.toNat_inj.mp ?_
    have := Word.toNat_ofInt word
    have := Word.toNat_ofInt word'
    omega
  rw [instructionPart, instructionPart, Hex.word_inj.mpr h, hw]

theorem instructionPart_append_inj {xs ys : List Char}
    (h : (instructionPart pc word).toList ++ xs = (instructionPart pc' word').toList ++ ys) :
    pc = pc' ∧ word % 0x10000 = word' % 0x10000 ∧ xs = ys := by
  have ⟨r, hr⟩ := exists_instructionPart_eq pc word
  have ⟨r', hr'⟩ := exists_instructionPart_eq pc' word'
  have hl := h
  simp only [hr, hr', List.append_assoc, List.cons_append] at hl
  rw [Text.append_cons_inj (blank_not_mem_address pc) (blank_not_mem_address pc'),
    List.cons.injEq] at hl
  obtain ⟨ha, -, hl⟩ := hl
  have hw := List.append_inj_left hl (by rw [length_word, length_word])
  obtain rfl := Hex.address_inj.mp (String.toList_inj.mp ha)
  have hw := Hex.word_inj.mp (String.toList_inj.mp hw)
  rw [instructionPart_congr hw] at h
  exact ⟨rfl, hw, List.append_cancel_left h⟩

theorem length_byte (n : Int) : (Hex.byte n).toList.length = 2 :=
  Hex.length_padded (by decide) (by rw [Nat.pow_eq]; omega)

theorem isField_byte (n : Int) : Text.IsField (Hex.byte n).toList where
  ne_nil := List.ne_nil_of_length_pos (by rw [length_byte]; decide)
  whole _ hc := Operand.isSeparator_of_isDigit (Hex.isDigit_of_mem_padded hc)

def bytes (v : List Int) : List Char := (" ".intercalate (v.map Hex.byte)).toList

theorem bytes_eq (v : List Int) :
    bytes v = [' '].intercalate ((v.map Hex.byte).map String.toList) := String.toList_intercalate

theorem read_bytes (v : List Int) :
    (Text.fields (bytes v)).map Hex.read? = v.map fun n ↦ some (n % 0x100).toNat := by
  have hf : Text.fields (bytes v) = (v.map Hex.byte).map String.toList := by
    rw [bytes_eq]
    refine Text.fields_intercalate rfl (List.forall_mem_nil _) ?_
    simp only [List.forall_mem_map]
    exact fun n _ ↦ isField_byte n
  rw [hf, List.map_map, List.map_map]
  exact List.map_congr_left fun n _ ↦ Hex.read?_byte n

theorem bytes_inj : bytes v = bytes v' ↔ v.map (· % 0x100) = v'.map (· % 0x100) := by
  constructor
  · intro h
    have back (v : List Int) : ((Text.fields (bytes v)).map Hex.read?).map
        (fun o ↦ ((o.getD 0 : Nat) : Int)) = v.map (· % 0x100) := by
      rw [read_bytes, List.map_map]
      refine List.map_congr_left fun n _ ↦ ?_
      simp only [Function.comp_apply, Option.getD_some]
      omega
    rw [← back, h, back]
  · intro h
    have low (v : List Int) : v.map Hex.byte = (v.map (· % 0x100)).map Hex.byte := by
      rw [List.map_map]
      exact List.map_congr_left fun n _ ↦ Hex.byte_inj.mpr (Int.emod_emod _ _).symm
    rw [bytes, bytes, low v, low v', h]

theorem colon_not_mem_bytes (v : List Int) : ':' ∉ bytes v := by
  rw [bytes_eq]
  refine Text.not_mem_intercalate (by decide) ?_
  simp only [List.forall_mem_map]
  exact fun n _ h ↦ nomatch Hex.isDigit_of_mem_padded h

theorem toList_registerPart (s : Snapshot) : (registerPart s).toList =
    'V' :: ':' :: (bytes s.v ++ [' ', 'I'] ++ ':' :: ((Hex.address s.index).toList ++
      ' ' :: 'S' :: 'P' :: ':' :: (s.depth.text.toList ++ ' ' :: 'D' :: 'T' :: ':' ::
        ((Hex.byte s.delay).toList ++ ' ' :: 'S' :: 'T' :: ':' :: (Hex.byte s.sound).toList)))) := by
  simp [registerPart, bytes]

theorem registerPart_inj : registerPart s = registerPart s' ↔
    s.v.map (· % 0x100) = s'.v.map (· % 0x100) ∧ s.index = s'.index ∧ s.depth = s'.depth ∧
      s.delay % 0x100 = s'.delay % 0x100 ∧ s.sound % 0x100 = s'.sound % 0x100 := by
  have blank (n : Int) : ' ' ∉ (Hex.byte n).toList := fun h ↦ nomatch Hex.isDigit_of_mem_padded h
  have colon (v : List Int) : ':' ∉ bytes v ++ [' ', 'I'] := by
    rw [List.mem_append]
    exact not_or.mpr ⟨colon_not_mem_bytes v, by decide⟩
  rw [← String.toList_inj, toList_registerPart, toList_registerPart]
  simp only [List.cons.injEq, true_and, Text.append_cons_inj (colon _) (colon _),
    Text.append_cons_inj (blank_not_mem_address _) (blank_not_mem_address _),
    Text.append_cons_inj (Whole.blank_not_mem_text _) (Whole.blank_not_mem_text _),
    Text.append_cons_inj (blank _) (blank _), List.append_cancel_right_eq, bytes_inj,
    String.toList_inj, Hex.address_inj, Hex.byte_inj, Whole.text_inj]

end Reading

section Column

def head (pc word : Int) : String :=
  Hex.address pc ++ "  " ++ Hex.word word ++ "  " ++ (Listing.ofWord (UInt16.ofInt word)).text

theorem length_head_lt (h₀ : 0 ≤ pc) (h : pc < 0x100000000000) (word : Int) :
    (head pc word).length < registerColumn := by
  have ha : (Hex.address pc).toList.length ≤ 11 := by
    rw [Hex.address, if_neg (by omega)]
    exact Hex.length_padded_le (by decide) (by decide) (by rw [Nat.pow_eq]; omega)
  have hw := length_word word
  have ht := Listing.length_text_le (UInt16.ofInt word)
  have two : "  ".length = 2 := rfl
  rw [String.length_toList] at ha hw
  rw [head, String.length_append, String.length_append, String.length_append, String.length_append, two,
    registerColumn]
  omega

theorem colon_not_mem_head (pc word : Int) : ':' ∉ (head pc word).toList := by
  have ha : ':' ∉ (Hex.address pc).toList := Hex.not_mem_address rfl (by decide)
  have hw : ':' ∉ (Hex.word word).toList := fun h ↦ nomatch Hex.isDigit_of_mem_padded h
  have ht := Listing.colon_not_mem_text (UInt16.ofInt word)
  have two : ':' ∉ "  ".toList := by decide
  simp only [head, String.toList_append, List.mem_append, ha, hw, ht, two, or_self, not_false_eq_true]

theorem toList_instructionPart (pc word : Int) : (instructionPart pc word).toList =
    (head pc word).toList ++ List.replicate (max 1 (registerColumn - (head pc word).length)) ' ' := by
  simp only [instructionPart, String.toList_append, String.toList_ofList, head]

theorem length_instructionPart (h₀ : 0 ≤ pc) (h : pc < 0x100000000000) :
    (instructionPart pc word).toList.length = registerColumn := by
  have hl := length_head_lt h₀ h word
  rw [toList_instructionPart, List.length_append, List.length_replicate, String.length_toList]
  omega

theorem colon_not_mem_instructionPart (pc word : Int) : ':' ∉ (instructionPart pc word).toList := by
  rw [toList_instructionPart, List.mem_append, List.mem_replicate, not_or]
  exact ⟨colon_not_mem_head pc word, fun h ↦ nomatch h.2⟩

end Column

/-- Two lines are the same exactly when they show the same: the program counter, the low sixteen
bits of the word, the low bytes of all registers, the index, the depth and the low bytes of the
timers. Below sixteen bits of program counter the first colon of the line is that of the registers,
which begin at the column. -/
theorem line_loses_nothing (pc pc' word word' : Int) (s s' : Snapshot) :
    (line pc word s = line pc' word' s' ↔
      pc = pc' ∧ word % 0x10000 = word' % 0x10000 ∧
        s.v.map (· % 0x100) = s'.v.map (· % 0x100) ∧ s.index = s'.index ∧ s.depth = s'.depth ∧
        s.delay % 0x100 = s'.delay % 0x100 ∧ s.sound % 0x100 = s'.sound % 0x100) ∧
    (0 ≤ pc → pc ≤ 0xFFFF → ∃ left block : List Char,
      left.length = 34 ∧ ':' ∉ left ∧ (line pc word s).toList = left ++ 'V' :: ':' :: block) := by
  constructor
  · rw [← registerPart_inj]
    constructor
    · intro h
      have h := congrArg String.toList h
      rw [line, line, String.toList_append, String.toList_append] at h
      obtain ⟨hp, hw, hr⟩ := instructionPart_append_inj h
      exact ⟨hp, hw, String.toList_inj.mp hr⟩
    · rintro ⟨rfl, hw, hr⟩
      rw [line, line, instructionPart_congr hw, hr]
  · intro h₀ h
    have hr := String.toList_append.trans
      (congrArg ((instructionPart pc word).toList ++ ·) (toList_registerPart s))
    exact ⟨_, _, length_instructionPart h₀ (by omega), colon_not_mem_instructionPart pc word, hr⟩

/-- A word with a higher bit set has the same line. The next depth that floating point has, with an
exponent in its text, has another line. -/
theorem next_depth_told_apart :
    let s (depth : Int) : Snapshot := ⟨[0x2A, 0xFF], 0x1000, .nearest depth, 3, -1⟩
    line 0x200 0x16A2A (s (10 ^ 21)) = line 0x200 0x6A2A (s (10 ^ 21)) ∧
      line 0x200 0x6A2A (s (10 ^ 21)) ≠ line 0x200 0x6A2A (s (10 ^ 21 + 0x20000)) ∧
      ∃ left block : List Char, left.length = 34 ∧ ':' ∉ left ∧
        (line 0x200 0x6A2A (s (10 ^ 21))).toList = left ++ 'V' :: ':' :: block := by
  intro s
  obtain ⟨hw, -⟩ := line_loses_nothing 0x200 0x200 0x16A2A 0x6A2A (s (10 ^ 21)) (s (10 ^ 21))
  obtain ⟨hd, hc⟩ := line_loses_nothing 0x200 0x200 0x6A2A 0x6A2A (s (10 ^ 21)) (s (10 ^ 21 + 0x20000))
  refine ⟨hw.mpr (by decide), fun h ↦ ?_, hc (by decide) (by decide)⟩
  obtain ⟨-, -, -, -, h, -⟩ := hd.mp h
  revert h
  decide

end Trace

end Chip8
