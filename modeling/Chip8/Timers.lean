namespace Chip8

structure Timers where
  delay : UInt8
  sound : UInt8
  deriving DecidableEq, Repr

namespace Timers

def initial : Timers := ⟨0, 0⟩

def countDown (t : UInt8) : UInt8 := if t = 0 then 0 else t - 1

theorem toNat_countDown (t : UInt8) : (countDown t).toNat = t.toNat - 1 := by
  rw [countDown]
  split
  · next h => rw [h]; rfl
  · next h =>
    have h₀ : t.toNat ≠ 0 := fun h' ↦ h (UInt8.toNat_inj.mp h')
    exact UInt8.toNat_sub_of_le t 1 (UInt8.le_iff_toNat_le.mpr (Nat.one_le_iff_ne_zero.mpr h₀))

def tick (t : Timers) : Timers := ⟨countDown t.delay, countDown t.sound⟩

def setDelay (t : Timers) (n : Int) : Timers := { t with delay := UInt8.ofInt n }

def setSound (t : Timers) (n : Int) : Timers := { t with sound := UInt8.ofInt n }

end Timers

end Chip8
