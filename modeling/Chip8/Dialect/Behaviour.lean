import Chip8.Dialect

namespace Chip8

inductive Behaviour
  | shiftsSecond
  | jumpsByX
  | movesIndex
  deriving DecidableEq, Repr

namespace Behaviour

def bit : Behaviour → Nat
  | shiftsSecond => 0
  | jumpsByX => 1
  | movesIndex => 2

def flag (b : Behaviour) : Nat := 1 <<< b.bit

end Behaviour

namespace Dialect

theorem testBit_set (d : Dialect) (flag k : Nat) :
    (d.set flag).bits.testBit k = (d.bits.testBit k || flag.testBit k) :=
  Nat.testBit_or d.bits flag k

theorem testBit_toggle (d : Dialect) (flag k : Nat) :
    (d.toggle flag).bits.testBit k = (d.bits.testBit k ^^ flag.testBit k) :=
  Nat.testBit_xor d.bits flag k

theorem testBit_clear (d : Dialect) (flag k : Nat) :
    (d.clear flag).bits.testBit k = (d.bits.testBit k && !flag.testBit k) := by
  rw [clear, Nat.testBit_xor, Nat.testBit_and]
  cases d.bits.testBit k <;> cases flag.testBit k <;> rfl

theorem testBit_one_shiftLeft (k j : Nat) : (1 <<< k).testBit j = decide (k = j) := by
  rw [Nat.one_shiftLeft, Nat.testBit_two_pow]

theorem has_shiftLeft (d : Dialect) (k : Nat) : d.has (1 <<< k) = d.bits.testBit k := by
  have hk (j : Nat) : (d.bits &&& 1 <<< k).testBit j = (d.bits.testBit j && decide (k = j)) := by
    rw [Nat.testBit_and, testBit_one_shiftLeft]
  rw [has]
  cases h : d.bits.testBit k with
  | false =>
    have h₀ : d.bits &&& 1 <<< k = 0 := by
      apply Nat.eq_of_testBit_eq
      intro j
      rw [hk, Nat.zero_testBit]
      by_cases hj : k = j
      · simp [← hj, h]
      · simp [hj]
    simp [h₀]
  | true =>
    apply bne_iff_ne.mpr
    intro h₀
    have h₁ := hk k
    simp [h₀, h] at h₁

theorem ext_testBit {d d' : Dialect} (h : ∀ k, d.bits.testBit k = d'.bits.testBit k) : d = d' :=
  congrArg Dialect.mk (Nat.eq_of_testBit_eq h)

/-- To flip a bit is to set it where it was clear, and to clear it where it was set. -/
theorem toggle_eq (d : Dialect) (k : Nat) :
    d.toggle (1 <<< k) =
      if (d.toggle (1 <<< k)).has (1 <<< k) then d.set (1 <<< k) else d.clear (1 <<< k) := by
  have hf := testBit_one_shiftLeft k
  rw [has_shiftLeft, testBit_toggle, hf]
  generalize 1 <<< k = flag at hf ⊢
  apply ext_testBit
  intro j
  by_cases hj : k = j
  · subst hj
    cases h : d.bits.testBit k <;> simp [testBit_toggle, testBit_set, testBit_clear, hf, h]
  · cases h : d.bits.testBit k <;> simp [testBit_toggle, testBit_set, testBit_clear, hf, hj]

end Dialect

end Chip8
