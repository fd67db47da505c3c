import Chip8.Machine.Step

namespace Chip8

theorem lowDigit_of_lt {n : Nat} (h : n < 16) : lowDigit n = ⟨n, h⟩ :=
  Fin.ext (Nat.mod_eq_of_lt h)

theorem Memory.inBounds_iff {a len : Int} :
    inBounds a len = true ↔ 0 ≤ a ∧ 0 ≤ len ∧ a + len ≤ 4096 := by
  simp only [inBounds, Bool.and_eq_true, decide_eq_true_eq, and_assoc]

namespace Machine

variable {m m' : Machine} {i : Instruction} {o : Outcome} {w : UInt16} {len : Nat}

theorem fetch?_eq_none_iff : m.fetch? = none ↔ Memory.inBounds m.pc.toNat 2 = false := by
  cases h : Memory.inBounds m.pc.toNat 2 <;> simp [fetch?, h]

theorem fetch?_eq_some_iff :
    m.fetch? = some w ↔
      Memory.inBounds m.pc.toNat 2 = true ∧ m.memory.readWord m.pc.toNat = w := by
  cases h : Memory.inBounds m.pc.toNat 2 <;> simp [fetch?, h]

theorem pc_le_of_fetch? (h : m.fetch? = some w) : m.pc.toNat + 2 ≤ 4096 := by
  have := Memory.inBounds_iff.mp (fetch?_eq_some_iff.mp h).1
  omega

/-- An instruction that needs memory has a fault exactly when some of it does not exist. -/
theorem fault?_of_span? (hs : span? i = some len) :
    m.fault? i =
      if Memory.inBounds m.index.toNat len then none
      else some (.outOfBounds m.pc.toNat m.index.toNat) := by
  cases i with
  | draw x y rows | storeDecimal x | storeRegisters x | loadRegisters x =>
    cases hs
    rfl
  | _ => cases hs

theorem inBounds_of_span? (hs : span? i = some len) (hf : m.fault? i = none) :
    Memory.inBounds m.index.toNat len = true := by
  rw [fault?_of_span? hs] at hf
  by_cases h : Memory.inBounds m.index.toNat len = true
  · exact h
  · simp [h] at hf

theorem span_le (hs : span? i = some len) (hf : m.fault? i = none) :
    m.index.toNat + len ≤ 4096 := by
  have := Memory.inBounds_iff.mp (inBounds_of_span? hs hf)
  omega

theorem fault?_pc (h : m.fault? i = some o) : o.pc? = some (m.pc.toNat : Int) := by
  cases hs : span? i with
  | some len =>
    rw [fault?_of_span? hs] at h
    by_cases hb : Memory.inBounds m.index.toNat len = true
    · simp [hb] at h
    · simp only [hb] at h
      cases h
      rfl
  | none =>
    cases i with
    | ret | call a =>
      simp only [fault?] at h
      split at h <;> cases h
      rfl
    | draw x y rows | storeDecimal x | storeRegisters x | loadRegisters x => cases hs
    | _ => cases h

inductive StepsTo (m : Machine) : Machine → Outcome → Prop
  | idle (hr : m.running = false) : StepsTo m m .noProgram
  | noWord (hr : m.running = true) (hw : m.fetch? = none) :
      StepsTo m m (.outOfBounds m.pc.toNat m.pc.toNat)
  | noInstruction {w : UInt16} (hr : m.running = true) (hw : m.fetch? = some w)
      (hi : Instruction.decode? w = none) : StepsTo m m (.invalidWord w.toNat m.pc.toNat)
  | fault {w : UInt16} {i : Instruction} {o : Outcome} (hr : m.running = true)
      (hw : m.fetch? = some w) (hi : Instruction.decode? w = some i) (ho : m.fault? i = some o) :
      StepsTo m m o
  | execute {w : UInt16} {i : Instruction} (hr : m.running = true) (hw : m.fetch? = some w)
      (hi : Instruction.decode? w = some i) (ho : m.fault? i = none) :
      StepsTo m (m.execute i) .success

theorem stepsTo (m : Machine) : m.StepsTo m.step.1 m.step.2 := by
  unfold step
  cases hr : m.running with
  | false => exact .idle hr
  | true =>
    cases hw : m.fetch? with
    | none => exact .noWord hr hw
    | some w =>
      cases hi : Instruction.decode? w with
      | none =>
        simp only [Bool.not_true, Bool.false_eq_true, ↓reduceIte, hi]
        exact .noInstruction hr hw hi
      | some i =>
        cases ho : m.fault? i with
        | none =>
          simp only [Bool.not_true, Bool.false_eq_true, ↓reduceIte, hi, ho]
          exact .execute hr hw hi ho
        | some o =>
          simp only [Bool.not_true, Bool.false_eq_true, ↓reduceIte, hi, ho]
          exact .fault hr hw hi ho

theorem StepsTo.step_eq (h : m.StepsTo m' o) : m.step = (m', o) := by
  cases h with
  | idle hr => simp [step, hr]
  | noWord hr hw => simp [step, hr, hw]
  | noInstruction hr hw hi => simp [step, hr, hw, hi]
  | fault hr hw hi ho => simp [step, hr, hw, hi, ho]
  | execute hr hw hi ho => simp [step, hr, hw, hi, ho]

theorem executed_of_success (h : m.step = (m', .success)) (hw : m.fetch? = some w) :
    m.running = true ∧ ∃ i, Instruction.decode? w = some i ∧ m.fault? i = none ∧
      m' = m.execute i := by
  have hs := m.stepsTo
  rw [h] at hs
  cases hs with
  | execute hr hw' hi ho =>
    rw [hw] at hw'
    cases hw'
    exact ⟨hr, _, hi, ho, rfl⟩
  | fault hr hw' hi ho => cases fault?_pc ho

theorem StepsTo.eq_of_ne_success (h : m.StepsTo m' o) (ho : o ≠ .success) : m' = m := by
  cases h with
  | execute => exact absurd rfl ho
  | _ => rfl

theorem StepsTo.pc_eq (h : m.StepsTo m' o) : ∀ pc ∈ o.pc?, pc = m.pc.toNat := by
  intro pc hpc
  cases h with
  | idle | execute => cases hpc
  | noWord | noInstruction => exact (Option.some.inj hpc).symm
  | fault hr hw hi ho =>
    rw [fault?_pc ho] at hpc
    exact (Option.some.inj hpc).symm

theorem StepsTo.ne_noProgram (h : m.StepsTo m' o) (hr : m.running = true) : o ≠ .noProgram := by
  intro hn
  subst hn
  cases h with
  | idle hr' => simp [hr] at hr'
  | fault _ hw hi ho => cases fault?_pc ho

structure Kept (m m' : Machine) : Prop where
  keypad_eq : m'.keypad = m.keypad
  dialect_eq : m'.dialect = m.dialect
  running_eq : m'.running = m.running

theorem Kept.refl (m : Machine) : m.Kept m := ⟨rfl, rfl, rfl⟩

theorem Kept.trans {m₁ m₂ m₃ : Machine} (h : m₁.Kept m₂) (h' : m₂.Kept m₃) : m₁.Kept m₃ where
  keypad_eq := h'.keypad_eq.trans h.keypad_eq
  dialect_eq := h'.dialect_eq.trans h.dialect_eq
  running_eq := h'.running_eq.trans h.running_eq

theorem Kept.advance (h : m.Kept m') : m.Kept m'.advance :=
  ⟨h.keypad_eq, h.dialect_eq, h.running_eq⟩

theorem execute_kept (m : Machine) (i : Instruction) : m.Kept (m.execute i) := by
  have hskip (b : Bool) : m.Kept (m.advanceOver b) := by cases b <;> exact ⟨rfl, rfl, rfl⟩
  cases i with
  | ret =>
    rw [execute]
    cases m.stack <;> exact ⟨rfl, rfl, rfl⟩
  | waitKey x =>
    rw [execute]
    cases m.keypad.lowest? <;> exact ⟨rfl, rfl, rfl⟩
  | arith op x y => cases op <;> exact ⟨rfl, rfl, rfl⟩
  | draw x y rows =>
    rw [execute]
    split
    exact .advance ⟨rfl, rfl, rfl⟩
  | loadRegisters x => exact .advance ⟨rfl, rfl, rfl⟩
  | skipIfByte | skipUnlessByte | skipIfEqual | skipUnlessEqual | skipIfKey | skipUnlessKey =>
    exact hskip _
  | _ => exact ⟨rfl, rfl, rfl⟩

theorem StepsTo.kept (h : m.StepsTo m' o) : m.Kept m' := by
  cases h with
  | execute => exact execute_kept m _
  | _ => exact .refl m

theorem step_of_ne_success (h : m.step.2 ≠ .success) : m.step = (m, m.step.2) :=
  Prod.ext (m.stepsTo.eq_of_ne_success h) rfl

end Machine

end Chip8
