import Chip8.Machine.History
import Chip8.Proofs.Machine.Step

namespace Chip8.Machine

variable {m m' : Machine} {e : Event}

theorem decode?_jump {a : Nat} (h : a < 4096) :
    Instruction.decode? (UInt16.ofNat (0x1000 + a)) = some (.jump ⟨a, h⟩) := by
  have hw : (UInt16.ofNat (0x1000 + a)).toNat = 0x1000 + a :=
    UInt16.toNat_ofNat_of_lt' (show 0x1000 + a < 0x10000 by omega)
  have hd : (0x1000 + a) / 0x1000 = 1 := by omega
  have ha : Word.low12 (UInt16.ofNat (0x1000 + a)) = ⟨a, h⟩ := by
    simp only [Word.low12, hw, Fin.mk.injEq]
    omega
  simp only [Instruction.decode?, hw, hd, ha]

theorem step_of_atSelfJump (hr : m.running = true) (h : m.atSelfJump = true) :
    m.step = (m, .success) := by
  have hw : m.fetch? = some (UInt16.ofNat (0x1000 + m.pc.toNat % 0x1000)) := beq_iff_eq.mp h
  have hpc := pc_le_of_fetch? hw
  have hlt : m.pc.toNat < 4096 := by omega
  rw [Nat.mod_eq_of_lt hlt] at hw
  have hx : m.execute (.jump ⟨m.pc.toNat, hlt⟩) = m := by
    simp only [execute, goTo, UInt16.ofNat_toNat]
  simp only [step, hr, hw, decode?_jump hlt, fault?, span?, hx]
  rfl

theorem apply_of_atSelfJump (hr : m.running = true) (h : m.atSelfJump = true)
    (he : e.isOrdinary = true) :
    ∃ timers keypad, m.apply e = { m with timers := timers, keypad := keypad } := by
  cases e with
  | step => exact ⟨m.timers, m.keypad, by rw [apply, step_of_atSelfJump hr h]⟩
  | tick => exact ⟨m.timers.tick, m.keypad, rfl⟩
  | setKey number down => exact ⟨m.timers, m.keypad.setNumber number down, rfl⟩
  | _ => cases he

theorem run_of_atSelfJump (hr : m.running = true) (h : m.atSelfJump = true) (es : List Event)
    (hes : ∀ e ∈ es, e.isOrdinary = true) :
    ∃ timers keypad, m.run es = { m with timers := timers, keypad := keypad } := by
  induction es generalizing m with
  | nil => exact ⟨m.timers, m.keypad, rfl⟩
  | cons e es ih =>
    obtain ⟨t, k, ha⟩ := apply_of_atSelfJump hr h (hes e List.mem_cons_self)
    obtain ⟨t', k', hm⟩ := ih (m := { m with timers := t, keypad := k }) hr h
      fun e he ↦ hes e (List.mem_cons_of_mem _ he)
    exact ⟨t', k', by rw [run_cons, ha, hm]⟩

end Chip8.Machine
