import Chip8.Instruction.Encoding
import Chip8.Proofs.Machine.Bounds
import Chip8.Proofs.Machine.Footprint

namespace Chip8

inductive Word.IsInstruction (w : UInt16) : Prop
  | clearScreen (h : w = 0x00E0)
  | ret (h : w = 0x00EE)
  | anyRest (h : w.toNat / 0x1000 ∈ [0x1, 0x2, 0x3, 0x4, 0x6, 0x7, 0xA, 0xB, 0xC, 0xD])
  | twoRegisters (h : w.toNat / 0x1000 ∈ [0x5, 0x9]) (hn : w.toNat % 0x10 = 0)
  | arith (h : w.toNat / 0x1000 = 0x8) (hn : w.toNat % 0x10 ∈ [0, 1, 2, 3, 4, 5, 6, 7, 0xE])
  | key (h : w.toNat / 0x1000 = 0xE) (hk : w.toNat % 0x100 ∈ [0x9E, 0xA1])
  | oneRegister (h : w.toNat / 0x1000 = 0xF)
      (hk : w.toNat % 0x100 ∈ [0x07, 0x0A, 0x15, 0x18, 0x1E, 0x29, 0x33, 0x55, 0x65])

namespace Word

variable {w : UInt16}

def HasAccess (w : UInt16) : Prop :=
  w.toNat / 0x1000 = 0xD ∨ IsF w 0x33 ∨ IsF w 0x55 ∨ IsF w 0x65

theorem HasAccess.isInstruction (h : HasAccess w) : IsInstruction w := by
  obtain h | ⟨hf, hk⟩ | ⟨hf, hk⟩ | ⟨hf, hk⟩ := h
  · exact .anyRest (by simp [h])
  all_goals exact .oneRegister hf (by simp [hk])

theorem HasAccess.ne_ret (h : HasAccess w) : w ≠ 0x00EE := by
  rintro rfl
  simp [HasAccess, IsF] at h

theorem HasAccess.ne_call (h : HasAccess w) : w.toNat / 0x1000 ≠ 2 := by
  unfold HasAccess IsF at h
  omega

end Word

namespace Instruction

variable {w : UInt16} {i : Instruction}

theorem isInstruction_of_decode? (h : decode? w = some i) : Word.IsInstruction w := by
  have hc := encode_of_decode? h
  cases i with
  | clearScreen => exact .clearScreen (UInt16.toNat_inj.mp hc.symm)
  | ret => exact .ret (UInt16.toNat_inj.mp hc.symm)
  | skipIfEqual x y | skipUnlessEqual x y =>
    simp only [encode] at hc
    refine .twoRegisters ?_ (by omega)
    simp only [List.mem_cons, List.not_mem_nil, or_false]
    omega
  | arith op x y =>
    have ho : op.code ∈ [0, 1, 2, 3, 4, 5, 6, 7, 0xE] := by cases op <;> decide
    have hl := op.code_le
    simp only [encode] at hc
    have hn : w.toNat % 0x10 = op.code := by omega
    exact .arith (by omega) (hn ▸ ho)
  | skipIfKey x | skipUnlessKey x =>
    simp only [encode] at hc
    refine .key (by omega) ?_
    simp only [List.mem_cons, List.not_mem_nil, or_false]
    omega
  | jump | call | setIndex | jumpOffset | draw =>
    simp only [encode] at hc
    refine .anyRest ?_
    simp only [List.mem_cons, List.not_mem_nil, or_false]
    omega
  | skipIfByte x kk | skipUnlessByte x kk | setByte x kk | addByte x kk | random x kk =>
    have hk := kk.toNat_lt
    simp only [encode] at hc
    refine .anyRest ?_
    simp only [List.mem_cons, List.not_mem_nil, or_false]
    omega
  | _ =>
    simp only [encode] at hc
    refine .oneRegister (by omega) ?_
    simp only [List.mem_cons, List.not_mem_nil, or_false]
    omega

theorem isSome_decode? (h : Word.IsInstruction w) : (decode? w).isSome := by
  have h₄ : (Word.low4 w).val = w.toNat % 0x10 := rfl
  have h₈ := Word.toNat_low8 w
  cases h with
  | clearScreen h | ret h =>
    rw [h]
    rfl
  | anyRest h =>
    simp only [List.mem_cons, List.not_mem_nil, or_false] at h
    rcases h with h | h | h | h | h | h | h | h | h | h <;> simp only [decode?, h, Option.isSome_some]
  | twoRegisters h hn =>
    simp only [List.mem_cons, List.not_mem_nil, or_false] at h
    rcases h with h | h <;> simp only [decode?, h, h₄, hn, if_true, Option.isSome_some]
  | arith h hn =>
    simp only [List.mem_cons, List.not_mem_nil, or_false] at hn
    rcases hn with hn | hn | hn | hn | hn | hn | hn | hn | hn <;>
      simp only [decode?, h, h₄, hn, Arith.ofCode?, Option.map_some, Option.isSome_some]
  | key h hk =>
    simp only [List.mem_cons, List.not_mem_nil, or_false] at hk
    rcases hk with hk | hk <;> simp only [decode?, h, h₈, hk, Option.isSome_some]
  | oneRegister h hk =>
    simp only [List.mem_cons, List.not_mem_nil, or_false] at hk
    rcases hk with hk | hk | hk | hk | hk | hk | hk | hk | hk <;>
      simp only [decode?, h, h₈, hk, Option.isSome_some]

theorem decode?_eq_none_iff : decode? w = none ↔ ¬Word.IsInstruction w := by
  constructor
  · intro h hw
    have hs := isSome_decode? hw
    rw [h] at hs
    cases hs
  · intro hw
    cases h : decode? w with
    | none => rfl
    | some i => exact absurd (isInstruction_of_decode? h) hw

theorem eq_ret_iff (h : decode? w = some i) : i = .ret ↔ w = 0x00EE := by
  constructor
  · rintro rfl
    exact UInt16.toNat_inj.mp (encode_of_decode? h).symm
  · rintro rfl
    cases show some Instruction.ret = some i from h
    rfl

theorem eq_call_iff (h : decode? w = some i) : (∃ a, i = .call a) ↔ w.toNat / 0x1000 = 2 := by
  constructor
  · rintro ⟨a, rfl⟩
    have hc := encode_of_decode? h
    simp only [encode] at hc
    omega
  · intro hw
    rw [Machine.decode?_call hw] at h
    cases h
    exact ⟨_, rfl⟩

end Instruction

namespace Machine

variable {m m' : Machine} {i : Instruction} {o o' : Outcome} {w : UInt16} {len : Nat}

def Overruns (m : Machine) (w : UInt16) : Prop :=
  w.toNat / 0x1000 = 0xD ∧ 0x1000 < m.index.toNat + w.toNat % 0x10 ∨
    Word.IsF w 0x33 ∧ 0x1000 < m.index.toNat + 3 ∨
    (Word.IsF w 0x55 ∨ Word.IsF w 0x65) ∧ 0x1000 < m.index.toNat + (Word.x w).val + 1

theorem overruns_iff (h : Instruction.decode? w = some i) :
    m.Overruns w ↔ ∃ len, span? i = some len ∧ 0x1000 < m.index.toNat + len := by
  have hc := Instruction.encode_of_decode? h
  have hx : (Word.x w).val = w.toNat / 0x100 % 0x10 := rfl
  unfold Overruns Word.IsF
  cases i with
  | draw x y rows | storeDecimal x | storeRegisters x | loadRegisters x =>
    simp only [Instruction.encode] at hc
    simp only [span?, Option.some.injEq, exists_eq_left']
    omega
  | skipIfByte x kk | skipUnlessByte x kk | setByte x kk | addByte x kk | random x kk =>
    have hk := kk.toNat_lt
    simp only [Instruction.encode] at hc
    simp only [span?, reduceCtorEq, false_and, exists_false, iff_false]
    omega
  | arith op x y =>
    have hl := op.code_le
    simp only [Instruction.encode] at hc
    simp only [span?, reduceCtorEq, false_and, exists_false, iff_false]
    omega
  | _ =>
    simp only [Instruction.encode] at hc
    simp only [span?, reduceCtorEq, false_and, exists_false, iff_false]
    omega

inductive FaultOf (m : Machine) (i : Instruction) : Option Outcome → Prop
  | empty (hi : i = .ret) (hs : m.stack = []) : FaultOf m i (some (.stackEmpty m.pc.toNat))
  | full (hi : ∃ a, i = .call a) (hs : stackLimit ≤ m.stack.length) :
      FaultOf m i (some (.stackOverflow m.pc.toNat))
  | beyond (hl : ∃ len, span? i = some len ∧ 0x1000 < m.index.toNat + len) :
      FaultOf m i (some (.outOfBounds m.pc.toNat m.index.toNat))
  | none (hr : ¬(i = .ret ∧ m.stack = []))
      (hc : ¬((∃ a, i = .call a) ∧ stackLimit ≤ m.stack.length))
      (hl : ¬∃ len, span? i = some len ∧ 0x1000 < m.index.toNat + len) : FaultOf m i none

theorem faultOf (m : Machine) (i : Instruction) : m.FaultOf i (m.fault? i) := by
  cases hs : span? i with
  | some len =>
    have hb : Memory.inBounds m.index.toNat len = true ↔ m.index.toNat + len ≤ 0x1000 := by
      rw [Memory.inBounds_iff]
      omega
    rw [fault?_of_span? hs]
    split
    · next h =>
      have hle := hb.mp h
      refine .none ?_ ?_ ?_
      · rintro ⟨rfl, -⟩
        cases hs
      · rintro ⟨⟨a, rfl⟩, -⟩
        cases hs
      · rintro ⟨len', hs', hlt⟩
        rw [hs] at hs'
        cases hs'
        omega
    · next h => exact .beyond ⟨len, hs, by rw [hb] at h; omega⟩
  | none =>
    have hl : ¬∃ len, span? i = some len ∧ 0x1000 < m.index.toNat + len := by
      rintro ⟨len, hs', -⟩
      rw [hs] at hs'
      cases hs'
    cases i with
    | ret =>
      rw [fault?]
      split
      · next h => exact .empty rfl (List.isEmpty_iff.mp h)
      · next h => exact .none (fun he ↦ h (List.isEmpty_iff.mpr he.2)) (by simp) hl
    | call a =>
      rw [fault?]
      split
      · next h => exact .full ⟨a, rfl⟩ h
      · next h => exact .none (by simp) (fun hc ↦ h hc.2) hl
    | draw x y rows | storeDecimal x | storeRegisters x | loadRegisters x => cases hs
    | _ => exact .none (by simp) (by simp) hl

/-- The states of a running machine with the word `w` at `pc` that an outcome tells of. When the
index is `pc` itself, an access beyond the end of memory is told like a word beyond it. -/
def Due (m : Machine) (w : UInt16) : Outcome → Prop
  | .noProgram => False
  | .outOfBounds pc a =>
    pc = m.pc.toNat ∧ (0xFFE < m.pc.toNat ∧ a = m.pc.toNat ∨
      m.pc.toNat ≤ 0xFFE ∧ m.Overruns w ∧ a = m.index.toNat)
  | .invalidWord v pc =>
    pc = m.pc.toNat ∧ m.pc.toNat ≤ 0xFFE ∧ ¬Word.IsInstruction w ∧ v = w.toNat
  | .stackEmpty pc => pc = m.pc.toNat ∧ m.pc.toNat ≤ 0xFFE ∧ w = 0x00EE ∧ m.stack = []
  | .stackOverflow pc =>
    pc = m.pc.toNat ∧ m.pc.toNat ≤ 0xFFE ∧ w.toNat / 0x1000 = 2 ∧ m.stack.length = 16
  | .success =>
    m.pc.toNat ≤ 0xFFE ∧ Word.IsInstruction w ∧ ¬(w = 0x00EE ∧ m.stack = []) ∧
      ¬(w.toNat / 0x1000 = 2 ∧ m.stack.length = 16) ∧ ¬m.Overruns w

theorem Overruns.hasAccess (h : m.Overruns w) : Word.HasAccess w := by
  obtain ⟨h, -⟩ | ⟨h, -⟩ | ⟨h | h, -⟩ := h
  · exact .inl h
  · exact .inr (.inl h)
  · exact .inr (.inr (.inl h))
  · exact .inr (.inr (.inr h))

theorem Due.unique (h : m.Due w o) (h' : m.Due w o') : o = o' := by
  have hret (hw : w = 0x00EE) : Word.IsInstruction w ∧ w.toNat / 0x1000 ≠ 2 := by
    subst hw
    exact ⟨.ret rfl, by decide⟩
  have hcall (hw : w.toNat / 0x1000 = 2) : Word.IsInstruction w := .anyRest (by simp [hw])
  have hover (ho : m.Overruns w) :
      Word.IsInstruction w ∧ w ≠ 0x00EE ∧ w.toNat / 0x1000 ≠ 2 :=
    ⟨ho.hasAccess.isInstruction, ho.hasAccess.ne_ret, ho.hasAccess.ne_call⟩
  -- Two different outcomes disagree on whether `pc` or the word is in range, or on what the word is.
  cases o <;> cases o' <;> simp only [Due] at h h' <;> grind

theorem fetch?_of_word (hp : m.pc.toNat ≤ 0xFFE)
    (hw : w.toNat = 0x100 * (m.memory.read m.pc.toNat).toNat +
      (m.memory.read (m.pc.toNat + 1 : Nat)).toNat) : m.fetch? = some w := by
  have hn : Memory.next m.pc.toNat = (m.pc.toNat + 1 : Nat) :=
    Memory.next_natCast (Nat.lt_of_le_of_lt hp (by decide))
  rw [fetch?_eq_some_iff]
  refine ⟨Memory.inBounds_iff.mpr (by omega), ?_⟩
  rw [Memory.readWord, hn, ← hw, UInt16.ofNat_toNat]

theorem StepsTo.due (h : m.StepsTo m' o) (hr : m.running = true) (hd : m.stack.length ≤ stackLimit)
    (hw : m.pc.toNat ≤ 0xFFE → m.fetch? = some w) : m.Due w o := by
  have hlimit : stackLimit = 16 := rfl
  cases h with
  | idle hr' =>
    rw [hr] at hr'
    cases hr'
  | noWord _ hf =>
    refine ⟨rfl, .inl ⟨?_, rfl⟩⟩
    by_contra hp
    rw [hw (by omega)] at hf
    cases hf
  | noInstruction _ hf hi =>
    have hp := pc_le_of_fetch? hf
    rw [hw (by omega)] at hf
    cases hf
    exact ⟨rfl, by omega, Instruction.decode?_eq_none_iff.mp hi, rfl⟩
  | @fault _ i _ _ hf hi ho =>
    have hp := pc_le_of_fetch? hf
    rw [hw (by omega)] at hf
    cases hf
    have h := m.faultOf i
    rw [ho] at h
    cases h with
    | empty hret hs => exact ⟨rfl, by omega, (Instruction.eq_ret_iff hi).mp hret, hs⟩
    | full hcall hs => exact ⟨rfl, by omega, (Instruction.eq_call_iff hi).mp hcall, by omega⟩
    | beyond hl => exact ⟨rfl, .inr ⟨by omega, (overruns_iff hi).mpr hl, rfl⟩⟩
  | @execute _ i _ hf hi ho =>
    have hp := pc_le_of_fetch? hf
    rw [hw (by omega)] at hf
    cases hf
    have h := m.faultOf i
    rw [ho] at h
    cases h with
    | none hret hcall hl =>
      rw [Instruction.eq_ret_iff hi] at hret
      rw [Instruction.eq_call_iff hi] at hcall
      rw [← overruns_iff hi] at hl
      exact ⟨by omega, Instruction.isInstruction_of_decode? hi, hret,
        fun hc ↦ hcall ⟨hc.1, by omega⟩, hl⟩

end Machine

end Chip8
