import Chip8.Instruction.Encoding
import Chip8.Proofs.Machine.Calls

namespace Chip8

def Word.IsF (w : UInt16) (kk : Nat) : Prop := w.toNat / 0x1000 = 0xF ∧ w.toNat % 0x100 = kk

instance (w : UInt16) (kk : Nat) : Decidable (Word.IsF w kk) := inferInstanceAs (Decidable (_ ∧ _))

inductive Place
  | cell (a : Address)
  | register (r : Register)
  | index
  | stack
  | screen
  | delay
  | sound
  | random

def Place.Same (m m' : Machine) : Place → Prop
  | cell a => m'.memory.read (a.val : Int) = m.memory.read (a.val : Int)
  | register r => m'.register r = m.register r
  | index => m'.index = m.index
  | stack => m'.stack = m.stack
  | screen => m'.screen = m.screen
  | delay => m'.timers.delay = m.timers.delay
  | sound => m'.timers.sound = m.timers.sound
  | random => m'.random = m.random

/-- A store leaves the cells outside its range alone. -/
theorem Memory.read_store (m : Memory) {bs : List UInt8} {a c : Nat} (ha : a + bs.length ≤ 4096)
    (hc : c < 4096) (h : c < a ∨ a + bs.length ≤ c) : (m.store a bs).read c = m.read c := by
  induction bs generalizing m a with
  | nil => rfl
  | cons b bs ih =>
    rw [List.length_cons] at ha h
    have hs : (a : Int) + 1 = (a + 1 : Nat) := rfl
    have hac : cell a ≠ cell c := by
      rw [cell_natCast (by omega), cell_natCast hc, Ne, Fin.mk.injEq]
      omega
    rw [store, hs, ih (m.write a b) (by omega) (by omega), read_write, if_neg hac]

namespace Machine

variable {m m' : Machine} {w : UInt16} {i : Instruction} {T : Place → Prop}

/-- The places that belong to a word: where the step of a machine with that word at `pc` may leave
something else. -/
def MayTouch (m : Machine) (w : UInt16) : Place → Prop
  | .cell a =>
    Word.IsF w 0x33 ∧ m.index.toNat ≤ a.val ∧ a.val ≤ m.index.toNat + 2 ∨
      Word.IsF w 0x55 ∧ m.index.toNat ≤ a.val ∧ a.val ≤ m.index.toNat + (Word.x w).val
  | .register r =>
    r = Word.x w ∧ (w.toNat / 0x1000 = 0x6 ∨ w.toNat / 0x1000 = 0x7 ∨ w.toNat / 0x1000 = 0x8 ∨
        w.toNat / 0x1000 = 0xC ∨ Word.IsF w 0x07 ∨ Word.IsF w 0x0A) ∨
      r.val ≤ (Word.x w).val ∧ Word.IsF w 0x65 ∨
      r = flagRegister ∧ (w.toNat / 0x1000 = 0xD ∨
        w.toNat / 0x1000 = 0x8 ∧ (4 ≤ w.toNat % 0x10 ∧ w.toNat % 0x10 ≤ 7 ∨ w.toNat % 0x10 = 0xE))
  | .index =>
    w.toNat / 0x1000 = 0xA ∨ Word.IsF w 0x1E ∨ Word.IsF w 0x29 ∨
      m.dialect.has Dialect.movesIndex = true ∧ (Word.IsF w 0x55 ∨ Word.IsF w 0x65)
  | .stack => w.toNat / 0x1000 = 0x2 ∨ w = 0x00EE
  | .screen => w = 0x00E0 ∨ w.toNat / 0x1000 = 0xD
  | .delay => Word.IsF w 0x15
  | .sound => Word.IsF w 0x18
  | .random => w.toNat / 0x1000 = 0xC

def Frame (T : Place → Prop) (m m' : Machine) : Prop := ∀ p, ¬T p → p.Same m m'

theorem Frame.refl (T : Place → Prop) (m : Machine) : Frame T m m := by
  intro p _
  cases p <;> rfl

theorem Frame.goTo (h : Frame T m m') (a : UInt16) : Frame T m (m'.goTo a) := by
  intro p hp
  cases p <;> exact h _ hp

theorem Frame.advance (h : Frame T m m') : Frame T m m'.advance := h.goTo _

theorem Frame.advanceOver (h : Frame T m m') (skip : Bool) : Frame T m (m'.advanceOver skip) := by
  cases skip with
  | false => exact h.advance
  | true => exact h.advance.advance

theorem Frame.setRegisters (h : Frame T m m') {v : Registers}
    (hv : ∀ r, ¬T (.register r) → { m' with v := v }.register r = m'.register r) :
    Frame T m { m' with v := v } := by
  intro p hp
  have hs := h p hp
  cases p with
  | register r => exact (hv r hp).trans hs
  | _ => exact hs

theorem Frame.setIndex (h : Frame T m m') {a : UInt16} (ha : ¬T .index → a = m'.index) :
    Frame T m { m' with index := a } := by
  intro p hp
  have hs := h p hp
  cases p with
  | index => exact (ha hp).trans hs
  | _ => exact hs

theorem Frame.setRegister (h : Frame T m m') {x : Register} (hx : T (.register x)) (b : UInt8) :
    Frame T m (m'.setRegister x b) := by
  refine h.setRegisters fun r hr ↦ ?_
  have hxr : x.val ≠ r.val := fun he ↦ hr (Fin.ext he ▸ hx)
  exact Vector.getElem_set_ne x.isLt r.isLt hxr

theorem indexAfter_of_not {n : Nat} (h : ¬m.dialect.has Dialect.movesIndex = true) :
    m.indexAfter n = m.index :=
  if_neg h

theorem mayTouch_target {x : Register} (hx : w.toNat / 0x100 % 0x10 = x.val)
    (ht : w.toNat / 0x1000 = 0x6 ∨ w.toNat / 0x1000 = 0x7 ∨ w.toNat / 0x1000 = 0x8 ∨
      w.toNat / 0x1000 = 0xC ∨ Word.IsF w 0x07 ∨ Word.IsF w 0x0A) :
    m.MayTouch w (.register x) :=
  .inl ⟨Fin.ext hx.symm, ht⟩

theorem executeArith_frame {op : Arith} {x y : Register} (hx : T (.register x))
    (hf : op.code ∈ [0x4, 0x5, 0x6, 0x7, 0xE] → T (.register flagRegister)) :
    Frame T m (m.executeArith op x y) := by
  have h := Frame.refl T m
  cases op with
  | copy | or | and | xor => exact h.setRegister hx _
  | add | sub | shiftRight | subFrom | shiftLeft =>
    exact (h.setRegister hx _).setRegister (hf (by decide)) _

theorem execute_frame (hw : Instruction.decode? w = some i) (ho : m.fault? i = none) :
    Frame (m.MayTouch w) m (m.execute i) := by
  have hc := Instruction.encode_of_decode? hw
  have h := Frame.refl (m.MayTouch w) m
  cases i with
  | clearScreen =>
    intro p hp
    cases p with
    | screen => exact absurd (.inl (UInt16.toNat_inj.mp hc.symm)) hp
    | _ => rfl
  | ret =>
    intro p hp
    cases p with
    | stack => exact absurd (.inr (UInt16.toNat_inj.mp hc.symm)) hp
    | _ =>
      rw [execute]
      cases m.stack <;> rfl
  | call a =>
    intro p hp
    cases p with
    | stack => exact absurd (.inl (by simp only [Instruction.encode] at hc; omega)) hp
    | _ => rfl
  | jump a => exact h.goTo _
  | jumpOffset x a => exact h.goTo _
  | skipIfByte | skipUnlessByte | skipIfEqual | skipUnlessEqual | skipIfKey | skipUnlessKey =>
    exact h.advanceOver _
  | setByte x kk | addByte x kk =>
    have hk := kk.toNat_lt
    simp only [Instruction.encode] at hc
    exact (h.setRegister (mayTouch_target (by omega) (by omega)) _).advance
  | arith op x y =>
    have ho := op.code_le
    simp only [Instruction.encode] at hc
    refine Frame.advance (executeArith_frame (mayTouch_target (by omega) (by omega)) ?_)
    intro hf
    simp only [List.mem_cons, List.not_mem_nil, or_false] at hf
    exact .inr (.inr ⟨rfl, by omega⟩)
  | readDelay x =>
    simp only [Instruction.encode] at hc
    refine (h.setRegister (mayTouch_target (by omega) ?_) _).advance
    unfold Word.IsF
    omega
  | waitKey x =>
    simp only [Instruction.encode] at hc
    rw [execute]
    cases m.keypad.lowest? with
    | none => exact h
    | some key =>
      refine (h.setRegister (mayTouch_target (by omega) ?_) _).advance
      unfold Word.IsF
      omega
  | random x kk =>
    have hk := kk.toNat_lt
    simp only [Instruction.encode] at hc
    have hd : Frame (m.MayTouch w) m { m with random := m.random.next.2 } := by
      intro p hp
      cases p with
      | random => exact absurd (show w.toNat / 0x1000 = 0xC by omega) hp
      | _ => rfl
    exact (hd.setRegister (mayTouch_target (by omega) (by omega)) _).advance
  | draw x y rows =>
    simp only [Instruction.encode] at hc
    have hd : w.toNat / 0x1000 = 0xD := by omega
    rw [execute]
    generalize m.screen.draw _ _ _ = drawn
    have hs : Frame (m.MayTouch w) m { m with screen := drawn.1 } := by
      intro p hp
      cases p with
      | screen => exact absurd (.inr hd) hp
      | _ => rfl
    exact (hs.setRegister (.inr (.inr ⟨rfl, .inl hd⟩)) _).advance
  | setDelay x =>
    simp only [Instruction.encode] at hc
    intro p hp
    cases p with
    | delay => exact absurd (show w.toNat / 0x1000 = 0xF ∧ w.toNat % 0x100 = 0x15 by omega) hp
    | _ => rfl
  | setSound x =>
    simp only [Instruction.encode] at hc
    intro p hp
    cases p with
    | sound => exact absurd (show w.toNat / 0x1000 = 0xF ∧ w.toNat % 0x100 = 0x18 by omega) hp
    | _ => rfl
  | setIndex | addIndex | pointToGlyph =>
    simp only [Instruction.encode] at hc
    refine (h.setIndex fun hi ↦ absurd ?_ hi).advance
    unfold MayTouch Word.IsF
    omega
  | storeDecimal x =>
    have hr := span_le rfl ho
    simp only [Instruction.encode] at hc
    intro p hp
    cases p with
    | cell a =>
      unfold MayTouch Word.IsF at hp
      exact m.memory.read_store hr a.isLt (by simp only [List.length_cons, List.length_nil]; omega)
    | _ => rfl
  | storeRegisters x =>
    have hr := span_le rfl ho
    have hl : (m.v.toList.take (x.val + 1)).length = x.val + 1 := by
      rw [List.length_take, Vector.length_toList]
      omega
    have hx : (Word.x w).val = w.toNat / 0x100 % 0x10 := rfl
    simp only [Instruction.encode] at hc
    have hf : Word.IsF w 0x55 := ⟨by omega, by omega⟩
    have hm : Frame (m.MayTouch w) m
        { m with memory := m.memory.store m.index.toNat (m.v.toList.take (x.val + 1)) } := by
      intro p hp
      cases p with
      | cell a =>
        have ha : ¬(m.index.toNat ≤ a.val ∧ a.val ≤ m.index.toNat + (Word.x w).val) :=
          fun ha ↦ hp (.inr ⟨hf, ha⟩)
        exact m.memory.read_store (by omega) a.isLt (by omega)
      | _ => rfl
    refine (hm.setIndex fun hi ↦ indexAfter_of_not fun hd ↦ hi ?_).advance
    exact .inr (.inr (.inr ⟨hd, .inl hf⟩))
  | loadRegisters x =>
    have hx : (Word.x w).val = w.toNat / 0x100 % 0x10 := rfl
    simp only [Instruction.encode] at hc
    have hf : Word.IsF w 0x65 := ⟨by omega, by omega⟩
    rw [execute]
    generalize hv : Vector.ofFn _ = v
    have hr : Frame (m.MayTouch w) m { m with v := v } := by
      refine h.setRegisters fun r hr ↦ ?_
      have hrx : ¬r ≤ x := by
        intro hrx
        rw [Fin.le_def] at hrx
        exact hr (.inr (.inl ⟨by omega, hf⟩))
      rw [register, register, ← hv, Fin.getElem_fin, Vector.getElem_ofFn, if_neg hrx]
    refine (hr.setIndex fun hi ↦ indexAfter_of_not fun hd ↦ hi ?_).advance
    exact .inr (.inr (.inr ⟨hd, .inr hf⟩))

structure Footprint (m : Machine) (w : UInt16) (m' : Machine) : Prop where
  same : ∀ p, ¬m.MayTouch w p → p.Same m m'
  drawn : m.MayTouch w .screen → m'.screen.revision = m.screen.revision + 1
  pushed : w.toNat / 0x1000 = 0x2 → ∃ a, m'.stack = a :: m.stack
  popped : w = 0x00EE → ∃ a, m.stack = a :: m'.stack
  thrown : w.toNat / 0x1000 = 0xC → m'.random = m.random.next.2
  kept : m.Kept m'

theorem decode?_draw (h : w.toNat / 0x1000 = 0xD) :
    Instruction.decode? w = some (.draw (Word.x w) (Word.y w) (Word.low4 w)) := by
  simp only [Instruction.decode?, h]

theorem decode?_random (h : w.toNat / 0x1000 = 0xC) :
    Instruction.decode? w = some (.random (Word.x w) (Word.low8 w)) := by
  simp only [Instruction.decode?, h]

theorem execute_footprint (hw : Instruction.decode? w = some i) (ho : m.fault? i = none) :
    m.Footprint w (m.execute i) where
  same := execute_frame hw ho
  drawn hd := by
    rcases hd with rfl | hd
    · cases show some Instruction.clearScreen = some i from hw
      rfl
    · rw [decode?_draw hd] at hw
      cases hw
      rfl
  pushed h := by
    rw [decode?_call h] at hw
    cases hw
    exact ⟨_, rfl⟩
  popped h := by
    subst h
    cases show some Instruction.ret = some i from hw
    cases hs : m.stack with
    | nil => simp [fault?, hs] at ho
    | cons a rest => exact ⟨a, by simp only [execute, hs]⟩
  thrown h := by
    rw [decode?_random h] at hw
    cases hw
    rfl
  kept := execute_kept m i

/-- A successful step leaves every place alone that does not belong to the word at `pc`. It changes
the screen once, moves the stack by one address and takes one random number, where it does so at
all; and the keys, the dialect and the program running are never its business. -/
theorem step_footprint (h : m.step = (m', .success)) :
    ∃ w, m.fetch? = some w ∧ m.Footprint w m' := by
  have hs := m.stepsTo
  rw [h] at hs
  cases hs with
  | execute hr hw hi ho => exact ⟨_, hw, execute_footprint hi ho⟩
  | fault hr hw hi ho => cases fault?_pc ho

/-- Two registers are stored over the word after the instruction, in a dialect that moves the
index. -/
theorem store_over_next_word_footprint :
    let m := (new ⟨4⟩ (.cycle [])).run [.load (.ok #[0xA2, 0x04, 0xF1, 0x55, 0xC3, 0xFF]), .step]
    m.step = (m.step.1, .success) ∧ m.fetch? = some 0xF155 ∧ m.step.1.fetch? = some 0x0000 ∧
      m.step.1.index = 0x206 ∧
      (∀ a : Address, a.val < 0x204 ∨ 0x205 < a.val →
        m.step.1.memory.read a.val = m.memory.read a.val) ∧
      (∀ r, m.step.1.register r = m.register r) ∧ m.step.1.screen = m.screen ∧
      m.step.1.stack = m.stack ∧ m.step.1.random = m.random := by
  intro m
  have ho : m.step.2 = .success := by decide +kernel
  have hw : m.fetch? = some 0xF155 := by decide +kernel
  have hn : m.step.1.fetch? = some 0x0000 := by decide +kernel
  have hi : m.index.toNat = 0x204 ∧ m.step.1.index = 0x206 := by decide +kernel
  clear_value m
  have hs : m.step = (m.step.1, .success) := Prod.ext rfl ho
  obtain ⟨w, hw', hf⟩ := step_footprint hs
  obtain rfl := Option.some.inj (hw.symm.trans hw')
  refine ⟨hs, hw, hn, hi.2, ?_, ?_, ?_, ?_, ?_⟩
  · intro a ha
    refine hf.same (.cell a) ?_
    unfold MayTouch
    rw [hi.1]
    simp [Word.IsF, Word.x, lowDigit]
    omega
  · intro r
    refine hf.same (.register r) ?_
    simp [MayTouch, Word.IsF]
  · exact hf.same .screen (by simp [MayTouch])
  · exact hf.same .stack (by simp [MayTouch])
  · exact hf.same .random (by simp [MayTouch])

end Machine

end Chip8
