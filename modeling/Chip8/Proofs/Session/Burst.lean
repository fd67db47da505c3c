import Chip8.Proofs.Machine.SelfJump
import Chip8.Session

namespace Chip8.Session

variable {tracing : Bool} {budget executed : Nat} {lines : List String} {m m' : Machine}
  {o : Outcome}

theorem burst_of_success (tracing : Bool) (budget executed : Nat) (lines : List String)
    (h : m.step = (m', .success)) :
    ∃ lines', burst tracing (budget + 1) executed lines m =
      burst tracing budget (executed + 1) lines' m' :=
  ⟨_, by rw [burst, h]⟩

theorem burst_of_fault (h : m.step.2 ≠ .success) :
    ∃ lines', burst tracing (budget + 1) executed lines m =
      ⟨m, executed, some m.step.2, lines'⟩ := by
  have hs := m.step_of_ne_success h
  generalize m.step.2 = o at h hs ⊢
  cases o with
  | success => exact absurd rfl h
  | _ => exact ⟨_, by rw [burst, hs]⟩

theorem burst_preserves {P : Machine → Prop} (h : ∀ m, P m → P m.step.1) (hm : P m) :
    P (burst tracing budget executed lines m).machine := by
  induction budget generalizing executed lines m with
  | zero => exact hm
  | succ budget ih =>
    by_cases ho : m.step.2 = .success
    · have hs : m.step = (m.step.1, .success) := Prod.ext rfl ho
      obtain ⟨lines', hb⟩ := burst_of_success tracing budget executed lines hs
      rw [hb]
      exact ih (h m hm)
    · obtain ⟨lines', hb⟩ := burst_of_fault ho
      rw [hb]
      exact hm

theorem burst_kept (tracing : Bool) (budget executed : Nat) (lines : List String) (m : Machine) :
    m.Kept (burst tracing budget executed lines m).machine :=
  burst_preserves (P := m.Kept) (fun n hn ↦ hn.trans n.stepsTo.kept) (.refl m)

theorem burst_executed (h : (burst tracing budget executed lines m).fault = none) :
    (burst tracing budget executed lines m).executed = executed + budget := by
  induction budget generalizing executed lines m with
  | zero => rfl
  | succ budget ih =>
    by_cases ho : m.step.2 = .success
    · have hs : m.step = (m.step.1, .success) := Prod.ext rfl ho
      obtain ⟨lines', hb⟩ := burst_of_success tracing budget executed lines hs
      rw [hb] at h ⊢
      rw [ih h, Nat.add_right_comm, Nat.add_assoc]
    · obtain ⟨lines', hb⟩ := burst_of_fault ho
      rw [hb] at h
      cases h

/-- Machines that no step tells apart make the same of their steps. -/
theorem burst_congr {R : Machine → Machine → Prop}
    (hR : ∀ m m', R m m' →
      m.step.2 = m'.step.2 ∧ m.traceLine? = m'.traceLine? ∧ R m.step.1 m'.step.1)
    (h : R m m') (tracing : Bool) (budget executed : Nat) (lines : List String) :
    let b := burst tracing budget executed lines m
    let b' := burst tracing budget executed lines m'
    b.executed = b'.executed ∧ b.fault = b'.fault ∧ b.lines = b'.lines ∧
      R b.machine b'.machine := by
  induction budget generalizing executed lines m m' with
  | zero => exact ⟨rfl, rfl, rfl, h⟩
  | succ budget ih =>
    obtain ⟨ho, ht, hr⟩ := hR m m' h
    simp only [burst, ht]
    generalize m.step = p at ho hr ⊢
    generalize m'.step = p' at ho hr ⊢
    obtain ⟨n, o⟩ := p
    obtain ⟨n', o'⟩ := p'
    cases ho
    cases o with
    | success => exact ih hr _ _
    | _ => exact ⟨rfl, rfl, rfl, hr⟩

theorem burst_fault (h : (burst tracing budget executed lines m).fault = some o) :
    o ≠ .success ∧ (burst tracing budget executed lines m).machine.step.2 = o := by
  induction budget generalizing executed lines m with
  | zero => cases h
  | succ budget ih =>
    by_cases ho : m.step.2 = .success
    · have hs : m.step = (m.step.1, .success) := Prod.ext rfl ho
      obtain ⟨lines', hb⟩ := burst_of_success tracing budget executed lines hs
      rw [hb] at h ⊢
      exact ih h
    · obtain ⟨lines', hb⟩ := burst_of_fault ho
      rw [hb] at h ⊢
      cases h
      exact ⟨ho, rfl⟩

theorem runFrame_of_idle {s : Session} (h : s.isActive = false) : s.runFrame = (s, 0, []) := by
  simp only [runFrame, h, Bool.false_eq_true, ↓reduceIte]

theorem runFrame_of_halt {s : Session} (h : s.halt = some o) : s.runFrame = (s, 0, []) := by
  apply runFrame_of_idle
  simp only [isActive, h, Option.isNone_some, Bool.and_false, Bool.false_and]

def played (s : Session) : Machine :=
  if s.isActive then (burst s.tracing s.budget.floor.toNat 0 [] s.machine).machine else s.machine

def ticks (s : Session) : Bool :=
  s.isActive && (burst s.tracing s.budget.floor.toNat 0 [] s.machine).fault.isNone

theorem runFrame_machine (s : Session) :
    s.runFrame.1.machine = if s.ticks then s.played.tick else s.played := by
  unfold runFrame ticks played
  cases s.isActive with
  | false => rfl
  | true =>
    simp only [↓reduceIte, Bool.true_and]
    cases (burst s.tracing s.budget.floor.toNat 0 [] s.machine).fault <;> rfl

theorem runFrame_keypad (s : Session) : s.runFrame.1.machine.keypad = s.machine.keypad := by
  have hp : s.played.keypad = s.machine.keypad := by
    rw [played]
    split
    · exact (burst_kept _ _ _ _ _).keypad_eq
    · rfl
  rw [runFrame_machine]
  split
  · exact hp
  · exact hp

end Chip8.Session
