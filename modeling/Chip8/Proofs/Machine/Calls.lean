import Mathlib.Data.List.Induction
import Chip8.Machine.History
import Chip8.Proofs.Machine.Step

namespace Chip8

def Event.keepsProgram : Event → Bool
  | .load _ | .reset _ => false
  | _ => true

namespace Machine

variable {m m' : Machine} {i : Instruction} {o : Outcome} {e : Event} {es : List Event}
  {w a : UInt16} {below : List UInt16}

theorem decode?_call (h : w.toNat / 0x1000 = 2) :
    Instruction.decode? w = some (.call (Word.low12 w)) := by
  simp only [Instruction.decode?, h]

theorem advance_stack (m : Machine) : m.advance.stack = m.stack := rfl

theorem execute_stack (hc : ∀ a, i ≠ .call a) (hr : i ≠ .ret) : (m.execute i).stack = m.stack := by
  have hskip (b : Bool) : (m.advanceOver b).stack = m.stack := by cases b <;> rfl
  cases i with
  | call a => exact absurd rfl (hc a)
  | ret => exact absurd rfl hr
  | waitKey x =>
    rw [execute]
    cases m.keypad.lowest? <;> rfl
  | arith op x y => cases op <;> rfl
  | draw x y rows =>
    rw [execute]
    split
    exact advance_stack _
  | loadRegisters x => exact advance_stack _
  | skipIfByte | skipUnlessByte | skipIfEqual | skipUnlessEqual | skipIfKey | skipUnlessKey =>
    exact hskip _
  | _ => rfl

inductive StackMove (m m' : Machine) : Prop
  | stay (h : m'.stack = m.stack)
  | push (a : UInt16) (h : m'.stack = a :: m.stack)
  | pop (h : m.stack = m'.pc :: m'.stack)

theorem execute_stackMove (ho : m.fault? i = none) : m.StackMove (m.execute i) := by
  cases i with
  | call a => exact .push (m.pc + 2) rfl
  | ret =>
    cases hs : m.stack with
    | nil => simp [fault?, hs] at ho
    | cons a rest =>
      apply StackMove.pop
      simp only [execute, hs]
  | _ =>
    apply StackMove.stay
    apply execute_stack
    · intro a h
      cases h
    · intro h
      cases h

theorem StepsTo.stackMove (h : m.StepsTo m' o) : m.StackMove m' := by
  cases h with
  | execute hr hw hi ho => exact execute_stackMove ho
  | _ => exact .stay rfl

theorem apply_stackMove (m : Machine) (he : e.keepsProgram = true) : m.StackMove (m.apply e) := by
  cases e with
  | step => exact m.stepsTo.stackMove
  | load read => cases he
  | reset dialect => cases he
  | _ => exact .stay rfl

/-- The return address `a` of a call stands on the stack that the call found. -/
def Inside (a : UInt16) (below : List UInt16) (m : Machine) : Prop := a :: below <:+ m.stack

def Returned (a : UInt16) (below : List UInt16) (m : Machine) : Prop := m.stack = below ∧ m.pc = a

theorem Inside.depth_ne (h : m.Inside a below) : m.stack.length ≠ below.length := by
  have hl := h.length_le
  rw [List.length_cons] at hl
  omega

theorem Inside.apply (h : m.Inside a below) (he : e.keepsProgram = true) :
    (m.apply e).Inside a below ∨ (m.apply e).Returned a below := by
  unfold Inside at h ⊢
  rcases m.apply_stackMove he with hs | ⟨b, hs⟩ | hs
  · left
    rwa [hs]
  · left
    rw [hs]
    exact h.trans (List.suffix_cons b m.stack)
  · -- The address taken off is either the one that the call pushed, or one above it.
    rw [hs, List.suffix_cons_iff] at h
    rcases h with h | h
    · right
      obtain ⟨hp, ht⟩ := List.cons.inj h
      exact ⟨ht.symm, hp.symm⟩
    · left
      exact h

/-- As long as no moment before the last has the old depth, the subroutine has not been left, or has
been left just now. -/
theorem Inside.run (h : m.Inside a below) (hes : ∀ e ∈ es, e.keepsProgram = true)
    (hd : ∀ k < es.length, (m.run (es.take k)).stack.length ≠ below.length) :
    (m.run es).Inside a below ∨ (m.run es).Returned a below := by
  induction es using List.reverseRecOn with
  | nil => exact .inl h
  | append_singleton es e ih =>
    have hlen : (es ++ [e]).length = es.length + 1 := by simp
    have hbefore : ∀ k < es.length, (m.run (es.take k)).stack.length ≠ below.length := by
      intro k hk
      have hk' := hd k (by omega)
      rwa [List.take_append_of_le_length (by omega)] at hk'
    have hlast : (m.run es).stack.length ≠ below.length := by
      have h' := hd es.length (by omega)
      rwa [List.take_left] at h'
    rw [run_append, run_cons, run_nil]
    rcases ih (fun e he ↦ hes e (List.mem_append_left _ he)) hbefore with hi | hr
    · exact hi.apply (hes e (by simp))
    · exact absurd (congrArg List.length hr.1) hlast

/-- A call pushes the address of the next word and jumps. From then on, at every moment up to the
first at which the stack is as deep as before the call, either that address still stands on the old
stack, or this is that first moment: the stack is the old one and `pc` the address. -/
theorem call_bracketed (m : Machine) (hr : m.running = true) (hw : m.fetch? = some w)
    (hc : w.toNat / 0x1000 = 2) (hs : m.stack.length < 16) :
    ∃ called, m.step = (called, .success) ∧ called.pc.toNat = w.toNat % 0x1000 ∧
      called.stack = (m.pc + 2) :: m.stack ∧ (m.pc + 2).toNat = m.pc.toNat + 2 ∧
      ∀ es, (∀ e ∈ es, e.keepsProgram = true) →
        (∀ k < es.length, (called.run (es.take k)).stack.length ≠ m.stack.length) →
          ((called.run es).stack.length ≠ m.stack.length →
            (m.pc + 2) :: m.stack <:+ (called.run es).stack) ∧
          ((called.run es).stack.length = m.stack.length →
            (called.run es).stack = m.stack ∧ (called.run es).pc = m.pc + 2) := by
  have ho : m.fault? (.call (Word.low12 w)) = none := if_neg (Nat.not_le.mpr hs)
  have hpc := pc_le_of_fetch? hw
  refine ⟨m.execute (.call (Word.low12 w)), ?_, ?_, rfl, ?_, ?_⟩
  · simp only [step, hr, hw, decode?_call hc, ho]
    rfl
  · exact UInt16.toNat_ofNat_of_lt' (Nat.lt_trans (Word.low12 w).isLt (by decide))
  · rw [UInt16.toNat_add]
    exact Nat.mod_eq_of_lt (show m.pc.toNat + 2 < 0x10000 by omega)
  · intro es hes hd
    have hi : (m.execute (.call (Word.low12 w))).Inside (m.pc + 2) m.stack := List.suffix_refl _
    rcases hi.run hes hd with h | h
    · exact ⟨fun _ ↦ h, fun hl ↦ absurd hl h.depth_ne⟩
    · exact ⟨fun hl ↦ absurd (congrArg List.length h.1) hl, fun _ ↦ h⟩

/-- The subroutine calls another one, which fails at a word that is no instruction until that word
is overwritten by a return. -/
theorem call_bracketed_through_patched_return :
    let m := (new .plain (.cycle [])).run
      [.load (.ok #[0x22, 0x04, 0x12, 0x02, 0x22, 0x08, 0x00, 0xEE, 0x00, 0x00])]
    let es : List Event := [.step, .step, .tick, .setKey 3 true, .poke 0x209 0xEE, .step, .step]
    m.running = true ∧ m.fetch? = some 0x2204 ∧ m.stack = [] ∧
      (m.step.1.run (es.take 4)).stack = [0x206, 0x202] ∧
      (m.step.1.run es).stack = m.stack ∧ (m.step.1.run es).pc = 0x202 := by
  intro m es
  have hr : m.running = true := by decide +kernel
  have hw : m.fetch? = some 0x2204 := by decide +kernel
  have hs : m.stack = [] := by decide +kernel
  have hp : m.pc + 2 = 0x202 := by decide +kernel
  obtain ⟨called, hcall, -, -, -, hrun⟩ := call_bracketed m hr hw (by decide) (by rw [hs]; decide)
  have hes : ∀ e ∈ es, e.keepsProgram = true := by simp [es, Event.keepsProgram]
  have hd : ∀ k < 7, (m.step.1.run (es.take k)).stack.length ≠ m.stack.length := by decide +kernel
  have hl : (m.step.1.run es).stack.length = m.stack.length := by decide +kernel
  have hin : (m.step.1.run (es.take 4)).stack = [0x206, 0x202] := by decide +kernel
  rw [hcall] at hd hl hin ⊢
  obtain ⟨hstack, hpc⟩ := (hrun es hes hd).2 hl
  exact ⟨hr, hw, hs, hin, hstack, hpc.trans hp⟩

end Machine

end Chip8
