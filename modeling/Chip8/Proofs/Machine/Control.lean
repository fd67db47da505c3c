import Chip8.Proofs.Machine.Bounds
import Chip8.Proofs.Machine.Footprint

namespace Chip8

theorem Keypad.lowest?_eq_none_iff (k : Keypad) : k.lowest? = none ↔ ∀ key, k.isDown key = false := by
  simp [lowest?]

namespace Machine

variable {m m' n : Machine} {w : UInt16} {i : Instruction} {a a' : Nat}

def Skips (m : Machine) (w : UInt16) : Prop :=
  w.toNat / 0x1000 = 0x3 ∧ (m.register (Word.x w)).toNat = w.toNat % 0x100 ∨
    w.toNat / 0x1000 = 0x4 ∧ (m.register (Word.x w)).toNat ≠ w.toNat % 0x100 ∨
    w.toNat / 0x1000 = 0x5 ∧ m.register (Word.x w) = m.register (Word.y w) ∨
    w.toNat / 0x1000 = 0x9 ∧ m.register (Word.x w) ≠ m.register (Word.y w) ∨
    w.toNat / 0x1000 = 0xE ∧ w.toNat % 0x100 = 0x9E ∧
      m.keypad.isDown (m.keyIn (Word.x w)) = true ∨
    w.toNat / 0x1000 = 0xE ∧ w.toNat % 0x100 = 0xA1 ∧
      m.keypad.isDown (m.keyIn (Word.x w)) = false

def Waits (m : Machine) (w : UInt16) : Prop := Word.IsF w 0x0A ∧ ∀ key, m.keypad.isDown key = false

def offsetRegister (m : Machine) (w : UInt16) : Register :=
  if m.dialect.has Dialect.jumpsByX then Word.x w else lowDigit 0

def Transfers (m : Machine) (w : UInt16) : Prop :=
  w.toNat / 0x1000 = 0x1 ∨ w.toNat / 0x1000 = 0x2 ∨ w.toNat = 0x00EE ∨ w.toNat / 0x1000 = 0xB ∨
    m.Waits w

/-- The address that a successful step with the word `w` at `pc` goes to. -/
inductive Goes (m : Machine) (w : UInt16) : Nat → Prop
  | jump (h : w.toNat / 0x1000 = 0x1 ∨ w.toNat / 0x1000 = 0x2) : Goes m w (w.toNat % 0x1000)
  | ret {a : UInt16} {rest : List UInt16} (h : w.toNat = 0x00EE) (hs : m.stack = a :: rest) :
      Goes m w a.toNat
  | offset (h : w.toNat / 0x1000 = 0xB) :
      Goes m w ((w.toNat % 0x1000 + (m.register (m.offsetRegister w)).toNat) % 0x1000)
  | wait (h : m.Waits w) : Goes m w m.pc.toNat
  | skip (h : m.Skips w) : Goes m w (m.pc.toNat + 4)
  | next (ht : ¬m.Transfers w) (hs : ¬m.Skips w) : Goes m w (m.pc.toNat + 2)

theorem Skips.not_transfers (h : m.Skips w) : ¬m.Transfers w := by
  unfold Skips at h
  unfold Transfers Waits Word.IsF
  omega

theorem Goes.unique (h : m.Goes w a) (h' : m.Goes w a') : a = a' := by
  have hw (hw : m.Waits w) : w.toNat / 0x1000 = 0xF := hw.1.1
  have hs (hs : m.Skips w) : ¬m.Transfers w := hs.not_transfers
  unfold Transfers at hs
  -- Two different ways to go on disagree on what the word is, or on whether it is a skip.
  cases h <;> cases h' <;> grind [Transfers]

theorem Goes.of_advance (hpc : m.pc.toNat + 2 ≤ 4096) (hn : n.pc = m.pc) (ht : ¬m.Transfers w)
    (hs : ¬m.Skips w) : m.Goes w n.advance.pc.toNat := by
  have ha : n.advance.pc = m.pc + 2 := congrArg (· + 2) hn
  rw [ha, toNat_pc_add_two (by omega)]
  exact .next ht hs

theorem decode?_jumpOffset (h : w.toNat / 0x1000 = 0xB) :
    Instruction.decode? w = some (.jumpOffset (Word.x w) (Word.low12 w)) := by
  simp only [Instruction.decode?, h]

end Machine

end Chip8
