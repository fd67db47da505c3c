import Chip8.Machine.History
import Chip8.Proofs.Machine.Step

namespace Chip8

def RandomSource.left (r : RandomSource) : RandomSource := ⟨fun k ↦ r.value (r.drawn + k), 0⟩

theorem RandomSource.next_left (r : RandomSource) :
    r.left.next.1 = r.next.1 ∧ r.left.next.2.left = r.next.2.left := by
  simp [next, left, Nat.add_assoc]

@[simp] theorem RandomSource.left_left (r : RandomSource) : r.left.left = r.left := by
  simp [left]

namespace Machine

variable {m m' : Machine} {o : Outcome}

def present (m : Machine) : Machine :=
  { m with screen := { m.screen with revision := 0 }, random := m.random.left }

inductive Answer
  | loaded (result : Except LoadError Nat)
  | stepped (o : Outcome)
  | done

def answer (m : Machine) : Event → Answer
  | .load read => .loaded (m.load read).2
  | .step => .stepped m.step.2
  | _ => .done

def answers (m : Machine) : List Event → List Answer
  | [] => []
  | e :: es => m.answer e :: (m.apply e).answers es

/-- Whatever happens to both machines, the answers are the same, and at every point the machines
are the same but for their past. -/
def Indistinguishable (m m' : Machine) : Prop :=
  ∀ es, m.answers es = m'.answers es ∧ (m.run es).present = (m'.run es).present

theorem fault?_present (m : Machine) (i : Instruction) : m.present.fault? i = m.fault? i := by
  cases i <;> rfl

@[simp] theorem present_present (m : Machine) : m.present.present = m.present := by
  simp [present]

theorem present_of_eq (h : m' = m.present) : m'.present = m.present := by
  rw [h, present_present]

theorem advanceOver_present (m : Machine) (skip : Bool) :
    (m.present.advanceOver skip).present = (m.advanceOver skip).present := by
  cases skip <;> exact present_of_eq rfl

theorem execute_present (m : Machine) (i : Instruction) :
    (m.present.execute i).present = (m.execute i).present := by
  cases i with
  | clearScreen => simp [execute, advance, goTo, Screen.clear, present]
  | draw x y rows =>
    simp only [execute, advance, goTo, setRegister, Screen.draw, present, RandomSource.left_left]
    rfl
  | random x kk =>
    obtain ⟨hn, hs⟩ := m.random.next_left
    simp [execute, advance, goTo, setRegister, present, hn, hs]
  | ret => cases hs : m.stack <;> simp [execute, present, hs]
  | waitKey x =>
    cases hk : m.keypad.lowest? <;> simp [execute, advance, goTo, setRegister, present, hk]
  | skipIfByte | skipUnlessByte | skipIfEqual | skipUnlessEqual | skipIfKey | skipUnlessKey =>
    exact advanceOver_present m _
  | arith op x y => cases op <;> exact present_of_eq rfl
  | _ => exact present_of_eq rfl

theorem StepsTo.present (h : m.StepsTo m' o) :
    ∃ n, m.present.StepsTo n o ∧ n.present = m'.present := by
  cases h with
  | idle hr => exact ⟨_, .idle hr, present_present m⟩
  | noWord hr hw => exact ⟨_, .noWord hr hw, present_present m⟩
  | noInstruction hr hw hi => exact ⟨_, .noInstruction hr hw hi, present_present m⟩
  | @fault w i o hr hw hi ho =>
    exact ⟨_, .fault hr hw hi ((fault?_present m i).trans ho), present_present m⟩
  | @execute w i hr hw hi ho =>
    exact ⟨_, .execute hr hw hi ((fault?_present m i).trans ho), execute_present m i⟩

theorem step_present (m : Machine) :
    m.present.step.1.present = m.step.1.present ∧ m.present.step.2 = m.step.2 := by
  obtain ⟨n, hn, hp⟩ := m.stepsTo.present
  rw [hn.step_eq]
  exact ⟨hp, rfl⟩

theorem load_present (m : Machine) (read : Except LoadError Image) :
    (m.present.load read).1.present = (m.load read).1.present ∧
      (m.present.load read).2 = (m.load read).2 := by
  unfold load
  cases read.bind LoadError.checkImage with
  | error e => exact ⟨present_present m, rfl⟩
  | ok image => exact ⟨by simp [start, restart, Screen.clear, present], rfl⟩

theorem answer_present (m : Machine) (e : Event) : m.present.answer e = m.answer e := by
  cases e with
  | load read => exact congrArg Answer.loaded (load_present m read).2
  | step => exact congrArg Answer.stepped (step_present m).2
  | _ => rfl

theorem apply_present (m : Machine) (e : Event) :
    (m.present.apply e).present = (m.apply e).present := by
  cases e with
  | load read => exact (load_present m read).1
  | step => exact (step_present m).1
  | reset dialect => simp [Machine.apply, reset, restart, Screen.clear, present]
  | _ => exact present_of_eq rfl

theorem indistinguishable_of_present_eq (h : m.present = m'.present) :
    m.Indistinguishable m' := by
  intro es
  induction es generalizing m m' with
  | nil => exact ⟨rfl, h⟩
  | cons e es ih =>
    have hm : (m.apply e).present = (m'.apply e).present := by
      rw [← apply_present, h, apply_present]
    obtain ⟨ha, hr⟩ := ih hm
    refine ⟨?_, hr⟩
    rw [answers, answers, ha, ← answer_present, h, answer_present]

end Machine

end Chip8
