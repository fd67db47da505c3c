import Chip8.Proofs.Machine.Present
import Chip8.Proofs.Session.Modes

namespace Chip8

namespace Machine

variable {m : Machine} {w : UInt16}

/-- The line of a word that was fetched, with all that the machine holds before the word is
executed: the registers from `V0` to `VF`, the index, the depth of the stack and the timers. -/
def lineBefore (m : Machine) (w : UInt16) : String :=
  Trace.line m.pc.toNat w.toNat
    { v := List.ofFn fun r : Register ↦ ((m.register r).toNat : Int)
      index := m.index.toNat
      depth := .nearest m.stack.length
      delay := m.timers.delay.toNat
      sound := m.timers.sound.toNat }

theorem line_snapshot (m : Machine) (w : UInt16) :
    Trace.line m.pc.toNat w.toNat m.snapshot = m.lineBefore w := by
  have hv : m.v.toList.map (fun b ↦ (b.toNat : Int)) =
      List.ofFn fun r : Register ↦ ((m.register r).toNat : Int) := by
    refine List.ext_getElem (by simp) fun k hk _ ↦ ?_
    rw [List.getElem_map, Vector.getElem_toList, List.getElem_ofFn]
    rfl
  rw [snapshot, hv, lineBefore]

theorem traceLine?_of_fetch? (hr : m.running = true) (hw : m.fetch? = some w) :
    m.traceLine? = some (m.lineBefore w) := by
  simp only [traceLine?, upcoming?, hr, hw, ↓reduceIte, Option.map_some, line_snapshot]

theorem traceLine?_of_noWord (hw : m.fetch? = none) : m.traceLine? = none := by
  simp only [traceLine?, upcoming?, hw, Option.map_none, ite_self]

end Machine

namespace Session

variable {s : Session} {m m' : Machine} {o : Outcome} {e : SessionEvent}

/-- From a machine on a number of steps succeed, and the next one fails if there is an outcome. The
lines are those of the words that were fetched, each with the registers before its execution. -/
inductive Observed : Machine → Nat → Option Outcome → List String → Prop
  | done (m : Machine) : Observed m 0 none []
  | step {m m' : Machine} {n : Nat} {o : Option Outcome} {w : UInt16} {lines : List String}
      (hw : m.fetch? = some w) (hs : m.step = (m', .success)) (h : Observed m' n o lines) :
      Observed m (n + 1) o (m.lineBefore w :: lines)
  | fault {m : Machine} {o : Outcome} {w : UInt16} (hw : m.fetch? = some w)
      (hs : m.step = (m, o)) (ho : o ≠ .success) :
      Observed m 0 (some o) [m.lineBefore w]
  | noWord {m : Machine} {o : Outcome} (hw : m.fetch? = none) (hs : m.step = (m, o))
      (ho : o ≠ .success) : Observed m 0 (some o) []

def traced (budget : Nat) (m : Machine) : Burst := burst true budget 0 [] m

theorem burst_eq (tracing : Bool) (budget executed : Nat) (lines : List String) (m : Machine) :
    burst tracing budget executed lines m =
      ⟨(traced budget m).machine, executed + (traced budget m).executed, (traced budget m).fault,
        lines.reverse ++ if tracing then (traced budget m).lines else []⟩ := by
  induction budget generalizing executed lines m tracing with
  | zero => simp [burst, traced]
  | succ budget ih =>
    cases hs : m.step with
    | mk m' o =>
      cases o with
      | success =>
        simp only [traced, burst, hs]
        rw [ih tracing, ih true]
        cases tracing <;> cases m.traceLine? <;> simp [Nat.add_assoc, Nat.add_comm 1]
      | _ => cases tracing <;> cases ht : m.traceLine? <;> simp [traced, burst, hs, ht]

theorem traced_of_success (budget : Nat) (hs : m.step = (m', .success)) :
    traced (budget + 1) m =
      ⟨(traced budget m').machine, (traced budget m').executed + 1, (traced budget m').fault,
        m.traceLine?.toList ++ (traced budget m').lines⟩ := by
  rw [traced, burst, hs]
  simp only [↓reduceIte]
  rw [burst_eq]
  cases m.traceLine? <;> simp [Nat.add_comm 1]

theorem traced_of_fault (budget : Nat) (hs : m.step = (m, o)) (ho : o ≠ .success) :
    traced (budget + 1) m = ⟨m, 0, some o, m.traceLine?.toList⟩ := by
  rw [traced, burst, hs]
  cases o with
  | success => exact absurd rfl ho
  | _ => cases m.traceLine? <;> rfl

theorem traced_observed (hr : m.running = true) (budget : Nat) :
    Observed m (traced budget m).executed (traced budget m).fault (traced budget m).lines := by
  induction budget generalizing m with
  | zero => exact .done m
  | succ budget ih =>
    have h := m.stepsTo
    generalize m.step.1 = m', m.step.2 = o at h
    have hs := h.step_eq
    cases h with
    | idle hr' => simp [hr] at hr'
    | noWord _ hw =>
      rw [traced_of_fault budget hs (by simp), Machine.traceLine?_of_noWord hw]
      exact .noWord hw hs (by simp)
    | noInstruction _ hw =>
      rw [traced_of_fault budget hs (by simp), Machine.traceLine?_of_fetch? hr hw]
      exact .fault hw hs (by simp)
    | fault _ hw _ ho =>
      have ho' : o ≠ .success := by
        rintro rfl
        cases Machine.fault?_pc ho
      rw [traced_of_fault budget hs ho', Machine.traceLine?_of_fetch? hr hw]
      exact .fault hw hs ho'
    | execute _ hw =>
      rw [traced_of_success budget hs, Machine.traceLine?_of_fetch? hr hw]
      exact .step hw hs (ih (by simpa [hs] using m.stepsTo.kept.running_eq.trans hr))

def Answer.lines : Answer → List String
  | .ran _ lines | .stepped _ lines => lines
  | _ => []

def Answer.unlined : Answer → Answer
  | .ran executed _ => .ran executed []
  | .stepped o _ => .stepped o []
  | a => a

theorem runFrame_eq (s : Session) :
    s.runFrame =
      if s.isActive then
        let b := traced s.budget.floor.toNat s.machine
        let carry := Binary64.sub s.budget s.budget.floor
        let lines := if s.tracing then b.lines else []
        match b.fault with
        | some o =>
          ({ s with machine := b.machine, carry := carry, halt := some o, status := o.description },
            b.executed, lines)
        | none => ({ s with machine := b.machine.tick, carry := carry }, b.executed, lines)
      else (s, 0, []) := by
  cases ha : s.isActive with
  | false => simp only [runFrame, ha, Bool.false_eq_true, ↓reduceIte]
  | true =>
    cases hf : (traced s.budget.floor.toNat s.machine).fault <;>
      simp only [runFrame, ha, burst_eq s.tracing, hf, Nat.zero_add, List.reverse_nil,
        List.nil_append, ↓reduceIte]

theorem runFrame_observed (ha : s.isActive = true) :
    ∃ lines, s.runFrame.2.2 = (if s.tracing then lines else []) ∧
      Observed s.machine s.runFrame.2.1 s.runFrame.1.halt lines := by
  obtain ⟨-, hh, hr⟩ := isActive_iff.mp ha
  have ho := traced_observed hr s.budget.floor.toNat
  rw [runFrame_eq, if_pos ha]
  generalize traced s.budget.floor.toNat s.machine = b at ho ⊢
  refine ⟨b.lines, ?_⟩
  dsimp only
  cases hf : b.fault with
  | none =>
    rw [hf, ← hh] at ho
    exact ⟨rfl, ho⟩
  | some o =>
    rw [hf] at ho
    exact ⟨rfl, ho⟩

/-- The lines are all that tracing changes in a frame. -/
theorem runFrame_setTracing (s : Session) (on : Bool) :
    (s.setTracing on).runFrame.1 = s.runFrame.1.setTracing on ∧
      (s.setTracing on).runFrame.2.1 = s.runFrame.2.1 := by
  have ha : (s.setTracing on).isActive = s.isActive := rfl
  have hb : (s.setTracing on).budget = s.budget := rfl
  have hm : (s.setTracing on).machine = s.machine := rfl
  rw [runFrame_eq, runFrame_eq, ha, hb, hm]
  cases s.isActive with
  | false => exact ⟨rfl, rfl⟩
  | true =>
    simp only [↓reduceIte]
    cases (traced s.budget.floor.toNat s.machine).fault <;> exact ⟨rfl, rfl⟩

theorem perform_setTracing (s : Session) (on : Bool) (he : ∀ on', e ≠ .setTracing on') :
    ((s.setTracing on).perform e).1 = (s.perform e).1.setTracing on ∧
      ((s.setTracing on).perform e).2.unlined = (s.perform e).2.unlined := by
  cases e with
  | load path read =>
    have hm : (s.setTracing on).freshMachine = s.freshMachine := rfl
    rw [perform, perform, load, load, hm]
    obtain ⟨m, err | n⟩ := s.freshMachine.load read <;> exact ⟨rfl, rfl⟩
  | reset => exact ⟨rfl, rfl⟩
  | togglePause =>
    simp only [perform, togglePause, setTracing]
    split <;> exact ⟨rfl, trivial⟩
  | toggle b => exact ⟨rfl, rfl⟩
  | frame =>
    obtain ⟨hs, hx⟩ := s.runFrame_setTracing on
    exact ⟨hs, congrArg (Answer.ran · []) hx⟩
  | press name | release name =>
    simp only [perform, press, release, setKey]
    cases Keyboard.keyFor? name <;> exact ⟨rfl, rfl⟩
  | setTracing on' => exact absurd rfl (he on')
  | stepMachine =>
    simp only [perform, stepMachine]
    exact ⟨rfl, rfl⟩

theorem perform_tracing (s : Session) (he : ∀ on, e ≠ .setTracing on) :
    (s.perform e).1.tracing = s.tracing := by
  have hself : s.setTracing s.tracing = s := rfl
  obtain ⟨hs, -⟩ := s.perform_setTracing s.tracing he
  rw [hself] at hs
  have ht := congrArg Session.tracing hs
  exact ht

end Session

end Chip8
