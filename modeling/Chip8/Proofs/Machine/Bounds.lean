import Chip8.Proofs.Machine.Cycle

namespace Chip8.Machine

variable {m m' : Machine} {i : Instruction} {o : Outcome}

/-- A skip over the last word of memory leaves `pc` four bytes after it. A call from there returns
to the end of memory, and no call returns to the first word. -/
structure Bounded (m : Machine) : Prop where
  pc_le : m.pc.toNat ≤ 0x1002
  index_le : m.index.toNat ≤ 0x1000
  depth_le : m.stack.length ≤ stackLimit
  return_mem : ∀ a ∈ m.stack, 2 ≤ a.toNat ∧ a.toNat ≤ 0x1000

/-- Every number the machine holds has its range, and the screen all its pixels. Only the bounds of
`pc`, the index and the stack need a history: what is added to them here holds of every machine, by
the types of its parts. That a timer stops at zero and does not go around is
`Timers.toNat_countDown`. -/
structure WellFormed (m : Machine) : Prop extends Bounded m where
  register_le : ∀ x : Register, m.v[x].toNat ≤ 0xFF
  byte_le : ∀ a : Int, (m.memory.read a).toNat ≤ 0xFF
  delay_le : m.timers.delay.toNat ≤ 0xFF
  sound_le : m.timers.sound.toNat ≤ 0xFF
  pixels : m.screen.frame.toArray.size = 2048

theorem Bounded.wellFormed (h : m.Bounded) : m.WellFormed where
  toBounded := h
  register_le x := Nat.le_of_lt_succ m.v[x].toNat_lt
  byte_le a := Nat.le_of_lt_succ (m.memory.read a).toNat_lt
  delay_le := Nat.le_of_lt_succ m.timers.delay.toNat_lt
  sound_le := Nat.le_of_lt_succ m.timers.sound.toNat_lt
  pixels := m.screen.frame.size_toArray

theorem toNat_ofNat_le {n k : Nat} (h : n ≤ k) (hk : k < 0x10000) :
    (UInt16.ofNat n).toNat ≤ k := by
  rw [UInt16.toNat_ofNat_of_lt' (Nat.lt_of_le_of_lt h hk)]
  exact h

theorem toNat_pc_add_two (h : m.pc.toNat + 2 < 0x10000) : (m.pc + 2).toNat = m.pc.toNat + 2 := by
  rw [UInt16.toNat_add]
  exact Nat.mod_eq_of_lt h

theorem indexAfter_le {n : Nat} (h : m.index.toNat + n ≤ 0x1000) :
    (m.indexAfter n).toNat ≤ 0x1000 := by
  unfold indexAfter
  split
  · rw [UInt16.toNat_add, UInt16.toNat_ofNat_of_lt' (show n < 0x10000 by omega)]
    exact Nat.le_trans (Nat.mod_le _ _) h
  · omega

/-- An effect that keeps `pc`, the stack and the bound of the index, and then the next word. -/
theorem Bounded.of_advance (h : m.Bounded) (hpc : m.pc.toNat + 2 ≤ 0x1002) (hp : m'.pc = m.pc)
    (hs : m'.stack = m.stack) (hi : m'.index.toNat ≤ 0x1000) : m'.advance.Bounded where
  pc_le := by
    have ha : m'.advance.pc = m.pc + 2 := congrArg (· + 2) hp
    rw [ha, toNat_pc_add_two (by omega)]
    exact hpc
  index_le := hi
  depth_le := show m'.stack.length ≤ stackLimit from hs ▸ h.depth_le
  return_mem := show ∀ a ∈ m'.stack, _ from hs ▸ h.return_mem

theorem Bounded.advanceOver (h : m.Bounded) (hpc : m.pc.toNat + 2 ≤ 0x1000) (skip : Bool) :
    (m.advanceOver skip).Bounded := by
  have h' : m.advance.Bounded := h.of_advance (by omega) rfl rfl h.index_le
  have ha : m.advance.pc.toNat = m.pc.toNat + 2 := toNat_pc_add_two (by omega)
  cases skip with
  | false => exact h'
  | true => exact h'.of_advance (by omega) rfl rfl h.index_le

theorem Bounded.goTo (h : m.Bounded) {n : Nat} (hn : n < 0x1000) :
    (m.goTo (UInt16.ofNat n)).Bounded where
  pc_le := toNat_ofNat_le (by omega) (by decide)
  index_le := h.index_le
  depth_le := h.depth_le
  return_mem := h.return_mem

theorem Bounded.execute (h : m.Bounded) (hpc : m.pc.toNat + 2 ≤ 0x1000) (ho : m.fault? i = none) :
    (m.execute i).Bounded := by
  have hpc' : m.pc.toNat + 2 ≤ 0x1002 := by omega
  cases i with
  | clearScreen => exact h.of_advance hpc' rfl rfl h.index_le
  | ret =>
    rw [Machine.execute]
    cases hs : m.stack with
    | nil => exact h
    | cons a rest =>
      have hr := h.return_mem
      have hd := h.depth_le
      rw [hs] at hr hd
      have ha : a.toNat ≤ 0x1002 := Nat.le_trans (hr a List.mem_cons_self).2 (by decide)
      exact ⟨ha, h.index_le, Nat.le_trans (Nat.le_succ _) hd,
        fun b hb ↦ hr b (List.mem_cons_of_mem a hb)⟩
  | jump a => exact h.goTo a.isLt
  | call a =>
    have hlen : m.stack.length < stackLimit := by simpa [fault?] using ho
    refine ⟨toNat_ofNat_le (by omega) (by decide), h.index_le, hlen, ?_⟩
    intro b hb
    rcases List.mem_cons.mp hb with rfl | hb
    · rw [toNat_pc_add_two (by omega)]
      omega
    · exact h.return_mem b hb
  | skipIfByte x kk => exact h.advanceOver hpc _
  | skipUnlessByte x kk => exact h.advanceOver hpc _
  | skipIfEqual x y => exact h.advanceOver hpc _
  | skipUnlessEqual x y => exact h.advanceOver hpc _
  | setByte x kk => exact h.of_advance hpc' rfl rfl h.index_le
  | addByte x kk => exact h.of_advance hpc' rfl rfl h.index_le
  | arith op x y => cases op <;> exact h.of_advance hpc' rfl rfl h.index_le
  | setIndex a => exact h.of_advance hpc' rfl rfl (toNat_ofNat_le (by omega) (by decide))
  | jumpOffset x a => exact h.goTo (Nat.mod_lt _ (by decide))
  | random x kk => exact h.of_advance hpc' rfl rfl h.index_le
  | draw x y rows => exact h.of_advance hpc' rfl rfl h.index_le
  | skipIfKey x => exact h.advanceOver hpc _
  | skipUnlessKey x => exact h.advanceOver hpc _
  | readDelay x => exact h.of_advance hpc' rfl rfl h.index_le
  | waitKey x =>
    rw [Machine.execute]
    cases m.keypad.lowest? with
    | none => exact h
    | some key => exact h.of_advance hpc' rfl rfl h.index_le
  | setDelay x => exact h.of_advance hpc' rfl rfl h.index_le
  | setSound x => exact h.of_advance hpc' rfl rfl h.index_le
  | addIndex x => exact h.of_advance hpc' rfl rfl (toNat_ofNat_le (by omega) (by decide))
  | pointToGlyph x =>
    have hg : Glyph.address m.v[x].toNat ≤ 0x1000 := by
      unfold Glyph.address Glyph.start
      omega
    exact h.of_advance hpc' rfl rfl (toNat_ofNat_le hg (by decide))
  | storeDecimal x => exact h.of_advance hpc' rfl rfl h.index_le
  | storeRegisters x | loadRegisters x =>
    exact h.of_advance hpc' rfl rfl (indexAfter_le (span_le rfl ho))

theorem Bounded.stepsTo (h : m.Bounded) (hs : m.StepsTo m' o) : m'.Bounded := by
  cases hs with
  | execute hr hw hi ho => exact h.execute (pc_le_of_fetch? hw) ho
  | _ => exact h

theorem bounded_of_start (hp : m.pc = UInt16.ofNat Memory.programStart) (hi : m.index = 0)
    (hs : m.stack = []) : m.Bounded where
  pc_le := by rw [hp]; decide
  index_le := by rw [hi]; decide
  depth_le := by rw [hs]; decide
  return_mem := by simp [hs]

theorem Bounded.apply (h : m.Bounded) (e : Event) : (m.apply e).Bounded := by
  cases e with
  | load read =>
    rw [Machine.apply, load]
    cases read.bind LoadError.checkImage with
    | error e => exact h
    | ok image => exact bounded_of_start rfl rfl rfl
  | step => exact h.stepsTo m.stepsTo
  | reset dialect => exact bounded_of_start rfl rfl rfl
  | _ => exact ⟨h.pc_le, h.index_le, h.depth_le, h.return_mem⟩

/-- After any history the machine is well formed, and its next step, carried out in order, gives
memory no address and the counters no sum that would be cut. -/
theorem wellFormed_and_exact_after_run (dialect : Dialect) (random : RandomSource)
    (es : List Event) :
    let m := (new dialect random).run es
    m.WellFormed ∧ m.step = (m.cycle.1.machine, m.cycle.2) ∧
      (∀ n ∈ m.cycle.1.counts, (UInt16.ofNat n).toNat = n) ∧
      ∀ a ∈ m.cycle.1.addresses, ((Memory.cell a).val : Int) = a := by
  intro m
  have h : m.Bounded := run_of_apply (fun _ e h ↦ h.apply e) (bounded_of_start rfl rfl rfl) es
  exact ⟨h.wellFormed, m.step_eq_cycle, m.cycle_exact.counts, m.cycle_exact.addresses⟩

end Chip8.Machine
