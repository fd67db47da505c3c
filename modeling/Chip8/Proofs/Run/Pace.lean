import Mathlib.Logic.Function.Iterate
import Chip8.Proofs.Machine.SelfJump
import Chip8.Run

namespace Chip8.Run

variable {every budget budget' n k s : Nat} {m m' m'' : Machine} {r : Report}

theorem tickAfter_running (every steps : Nat) (m : Machine) :
    (tickAfter every steps m).running = m.running := by
  rw [tickAfter]
  split <;> rfl

/-- Steps in a row that all succeed, the first one after `s` others, with the ticks they are due. -/
inductive Paced (every : Nat) : (n s : Nat) → Machine → Machine → Prop
  | zero (s : Nat) (m : Machine) : Paced every 0 s m m
  | cons {n s : Nat} {m next m' : Machine} (hs : m.step = (next, .success))
      (h : Paced every n (s + 1) (tickAfter every (s + 1) next) m') : Paced every (n + 1) s m m'

theorem Paced.trans (h : Paced every n s m m') (h' : Paced every k (s + n) m' m'') :
    Paced every (n + k) s m m'' := by
  induction h with
  | zero =>
    rw [Nat.zero_add]
    exact h'
  | @cons n s m next m' hs h ih =>
    rw [Nat.add_right_comm]
    refine .cons hs (ih ?_)
    rwa [Nat.add_right_comm, Nat.add_assoc]

theorem Paced.split (h : Paced every (n + k) s m m'') :
    ∃ m', Paced every n s m m' ∧ Paced every k (s + n) m' m'' := by
  induction n generalizing s m with
  | zero =>
    rw [Nat.zero_add] at h
    exact ⟨m, .zero s m, h⟩
  | succ n ih =>
    rw [Nat.add_right_comm] at h
    cases h with
    | cons hs h =>
      obtain ⟨m', h₁, h₂⟩ := ih h
      exact ⟨m', .cons hs h₁, by rwa [Nat.add_right_comm, Nat.add_assoc] at h₂⟩

theorem Paced.last (h : Paced every (n + 1) s m m') :
    ∃ m₁ next, Paced every n s m m₁ ∧ m₁.step = (next, .success) ∧
      m' = tickAfter every (s + n + 1) next := by
  obtain ⟨m₁, h₁, h₂⟩ := h.split
  cases h₂ with
  | @cons _ _ _ next _ hs h₃ =>
    cases h₃
    exact ⟨m₁, next, h₁, hs, rfl⟩

theorem Paced.running (h : Paced every n s m m') : m'.running = m.running := by
  induction h with
  | zero => rfl
  | @cons n s m next m' hs h ih =>
    have hn : m.StepsTo next .success := by simpa only [hs] using m.stepsTo
    rw [ih, tickAfter_running, hn.kept.running_eq]

theorem succ_mod_of_lt (h : s % every + 1 < every) : (s + 1) % every = s % every + 1 := by
  rw [Nat.add_mod, Nat.mod_eq_of_lt (show 1 < every by omega), Nat.mod_eq_of_lt h]

theorem tickAfter_of_lt (h : s % every + 1 < every) (m : Machine) :
    tickAfter every (s + 1) m = m := by
  refine if_neg fun ⟨_, h'⟩ ↦ ?_
  rw [succ_mod_of_lt h] at h'
  omega

theorem tickAfter_mul (he : 0 < every) (k : Nat) (m : Machine) :
    tickAfter every (every * k) m = m.tick :=
  if_pos ⟨he, Nat.mul_mod_right every k⟩

theorem tickAfter_eq (every s : Nat) (m : Machine) :
    tickAfter every (s + 1) m =
      { m with timers := Timers.tick^[(s + 1) / every - s / every] m.timers } := by
  rw [tickAfter]
  by_cases h : (s + 1) % every = 0
  · have he : 0 < every := Nat.pos_of_ne_zero fun h₀ ↦ by simp [h₀] at h
    rw [if_pos ⟨he, h⟩, Nat.succ_div_of_mod_eq_zero h, Nat.add_sub_cancel_left]
    rfl
  · rw [if_neg fun h' ↦ h h'.2, Nat.succ_div_of_mod_ne_zero h, Nat.sub_self]
    rfl

/-- At a jump to itself a machine goes on forever, and only the ticks show. -/
theorem paced_of_atSelfJump (hr : m.running = true) (hl : m.atSelfJump = true) (n s : Nat) :
    Paced every n s m
      { m with timers := Timers.tick^[(s + n) / every - s / every] m.timers } := by
  induction n generalizing s m with
  | zero =>
    rw [Nat.add_zero, Nat.sub_self]
    exact .zero s m
  | succ n ih =>
    have hd : s / every ≤ (s + 1) / every := Nat.div_le_div_right (Nat.le_succ s)
    have hd' : (s + 1) / every ≤ (s + 1 + n) / every := Nat.div_le_div_right (Nat.le_add_right _ _)
    have ht : (s + (n + 1)) / every - s / every =
        ((s + 1 + n) / every - (s + 1) / every) + ((s + 1) / every - s / every) := by
      rw [Nat.add_right_comm s 1 n, Nat.add_assoc s n 1] at hd' ⊢
      omega
    refine .cons (Machine.step_of_atSelfJump hr hl) ?_
    rw [tickAfter_eq, ht, Function.iterate_add_apply]
    generalize Timers.tick^[(s + 1) / every - s / every] m.timers = t
    exact ih (m := { m with timers := t }) hr hl (s + 1)

inductive Ends (every budget s : Nat) (m : Machine) : Report → Prop
  | timeout {m' : Machine} (h : Paced every budget s m m') :
      Ends every budget s m ⟨s + budget, .timeout, m'⟩
  | fault {n : Nat} {m' : Machine} {o : Outcome} (h : Paced every n s m m') (hn : n < budget)
      (ho : o ≠ .success) (hs : m'.step = (m', o)) : Ends every budget s m ⟨s + n, .fault o, m'⟩
  | loop {n : Nat} {m' : Machine} (h : Paced every n s m m') (hn : n < budget)
      (hl : m'.atSelfJump = true) : Ends every budget s m ⟨s + n, .loop, m'⟩

theorem Ends.steps_le (h : Ends every budget s m r) : r.steps ≤ s + budget := by
  cases h with
  | timeout => exact Nat.le_refl _
  | fault h hn | loop h hn => exact Nat.add_le_add_left (Nat.le_of_lt hn) s

theorem Ends.cons (hs : m.step = (m', .success))
    (h : Ends every budget (s + 1) (tickAfter every (s + 1) m') r) :
    Ends every (budget + 1) s m r := by
  cases h with
  | timeout h =>
    rw [Nat.add_assoc, Nat.add_comm 1]
    exact .timeout (.cons hs h)
  | fault h hn ho ho' =>
    rw [Nat.add_assoc, Nat.add_comm 1]
    exact .fault (.cons hs h) (Nat.succ_lt_succ hn) ho ho'
  | loop h hn hl =>
    rw [Nat.add_assoc, Nat.add_comm 1]
    exact .loop (.cons hs h) (Nat.succ_lt_succ hn) hl

theorem continueFrom_of_step (hl : m.atSelfJump = false) (hs : m.step = (m', .success)) :
    continueFrom every (budget + 1) s m =
      continueFrom every budget (s + 1) (tickAfter every (s + 1) m') := by
  simp [continueFrom, hl, hs]

theorem continueFrom_of_fault (hl : m.atSelfJump = false) (ho : m.step.2 ≠ .success) :
    continueFrom every (budget + 1) s m = ⟨s, .fault m.step.2, m⟩ := by
  have hs := m.step_of_ne_success ho
  generalize m.step.2 = o at hs ho
  cases o with
  | success => exact absurd rfl ho
  | _ => simp [continueFrom, hl, hs]

theorem continueFrom_of_atSelfJump (hl : m.atSelfJump = true) :
    continueFrom every (budget + 1) s m = ⟨s, .loop, m⟩ := by
  simp [continueFrom, hl]

theorem continueFrom_ends (every budget s : Nat) (m : Machine) :
    Ends every budget s m (continueFrom every budget s m) := by
  induction budget generalizing s m with
  | zero => exact .timeout (.zero s m)
  | succ budget ih =>
    cases hl : m.atSelfJump with
    | true =>
      rw [continueFrom_of_atSelfJump hl]
      exact .loop (.zero s m) (Nat.succ_pos _) hl
    | false =>
      by_cases ho : m.step.2 = .success
      · have hs : m.step = (m.step.1, .success) := Prod.ext rfl ho
        rw [continueFrom_of_step hl hs]
        exact .cons hs (ih (s + 1) _)
      · rw [continueFrom_of_fault hl ho]
        exact .fault (.zero s m) (Nat.succ_pos _) ho (m.step_of_ne_success ho)

/-- A run that stopped by itself stops there with any larger budget. -/
theorem continueFrom_mono (h : budget ≤ budget')
    (hs : (continueFrom every budget s m).stop ≠ .timeout) :
    continueFrom every budget' s m = continueFrom every budget s m := by
  induction budget generalizing budget' s m with
  | zero => exact absurd rfl hs
  | succ budget ih =>
    obtain ⟨b, rfl⟩ := Nat.exists_eq_add_of_le' h
    rw [← Nat.add_assoc]
    cases hl : m.atSelfJump with
    | true => rw [continueFrom_of_atSelfJump hl, continueFrom_of_atSelfJump hl]
    | false =>
      by_cases ho : m.step.2 = .success
      · have hm : m.step = (m.step.1, .success) := Prod.ext rfl ho
        rw [continueFrom_of_step hl hm] at hs ⊢
        rw [continueFrom_of_step hl hm]
        exact ih (Nat.le_add_left _ _) hs
      · rw [continueFrom_of_fault hl ho, continueFrom_of_fault hl ho]

theorem program_of_le (dialect : Dialect) (random : RandomSource) (every budget : Nat)
    {image : Image} (h : image.size ≤ Memory.programLimit) :
    program dialect random every budget image =
      .ok (continueFrom every budget 0 ((Machine.new dialect random).start image)) := by
  simp only [program, Machine.load_of_le _ h]

end Chip8.Run
