import Chip8.Proofs.Machine.Dialects
import Chip8.Proofs.Session.Modes

namespace Chip8

namespace Machine

def forward (m : Machine) : Machine := { m with random := m.random.left }

theorem forward_eq_recast {m : Machine} {d : Dialect} (h : m.dialect = d) :
    m.forward = m.recast d := by
  rw [← h]
  rfl

@[simp] theorem forward_forward (m : Machine) : m.forward.forward = m.forward := by
  simp [forward]

theorem step_forward (m : Machine) :
    m.forward.step.2 = m.step.2 ∧ m.forward.step.1.forward = m.step.1.forward := by
  obtain ⟨ho, hs⟩ := m.step_recast m.dialect m.dialect fun _ _ _ ↦ rfl
  rw [← forward_eq_recast rfl] at ho hs
  rw [forward_eq_recast m.forward.stepsTo.kept.dialect_eq,
    forward_eq_recast m.stepsTo.kept.dialect_eq]
  exact ⟨ho, hs⟩

theorem traceLine?_forward (m : Machine) : m.forward.traceLine? = m.traceLine? := rfl

theorem load_forward (m : Machine) (read : Except LoadError Image) :
    m.forward.load read = ((m.load read).1.forward, (m.load read).2) := by
  unfold load
  cases read.bind LoadError.checkImage <;> rfl

end Machine

namespace Session

variable {s s' : Session} {e : SessionEvent} {es : List SessionEvent}

theorem perform_status (s : Session) (t : String) (e : SessionEvent) :
    ∃ t', { s with status := t }.perform e =
        ({ (s.perform e).1 with status := t' }, (s.perform e).2) ∧
      (t' = t ∨ t' = (s.perform e).1.status) := by
  cases e with
  | load path read =>
    have hm : { s with status := t }.freshMachine = s.freshMachine := rfl
    rw [perform, perform, load, load, hm]
    obtain ⟨m, err | n⟩ := s.freshMachine.load read
    · exact ⟨_, rfl, .inr rfl⟩
    · exact ⟨_, rfl, .inr rfl⟩
  | reset => exact ⟨statusIdle, rfl, .inr rfl⟩
  | togglePause =>
    simp only [perform, togglePause]
    split
    · exact ⟨_, rfl, .inr rfl⟩
    · exact ⟨t, rfl, .inl rfl⟩
  | toggle b => exact ⟨t, rfl, .inl rfl⟩
  | frame =>
    have ha : { s with status := t }.isActive = s.isActive := rfl
    have hb : { s with status := t }.budget = s.budget := rfl
    simp only [perform, runFrame, ha, hb]
    split
    · split
      · exact ⟨_, rfl, .inr rfl⟩
      · exact ⟨t, rfl, .inl rfl⟩
    · exact ⟨t, rfl, .inl rfl⟩
  | press name | release name =>
    simp only [perform, press, release, setKey]
    cases Keyboard.keyFor? name <;> exact ⟨t, rfl, .inl rfl⟩
  | setTracing on => exact ⟨t, rfl, .inl rfl⟩
  | stepMachine =>
    simp only [perform, stepMachine]
    exact ⟨t, rfl, .inl rfl⟩

theorem run_status_or (s : Session) (t : String) (es : List SessionEvent) :
    { s with status := t }.answers es = s.answers es ∧
      ∃ t', { s with status := t }.run es = { s.run es with status := t' } ∧
        (t' = t ∨ t' = (s.run es).status) := by
  apply run_congr
    (R := fun s' s ↦ ∃ t', s' = { s with status := t' } ∧ (t' = t ∨ t' = s.status))
  · rintro _ s e ⟨_, rfl, rfl | rfl⟩
    · obtain ⟨t', he, ht⟩ := s.perform_status _ e
      rw [he]
      exact ⟨rfl, t', rfl, ht⟩
    · exact ⟨rfl, _, rfl, .inr rfl⟩
  · exact ⟨t, rfl, .inl rfl⟩

theorem run_status (s : Session) (t : String) (es : List SessionEvent) :
    { s with status := t }.answers es = s.answers es ∧
      ∃ t', { s with status := t }.run es = { s.run es with status := t' } := by
  obtain ⟨ha, t', hs, -⟩ := s.run_status_or t es
  exact ⟨ha, t', hs⟩

def forward (s : Session) : Session := { s with machine := s.machine.forward }

@[simp] theorem forward_forward (s : Session) : s.forward.forward = s.forward := by
  simp [forward]

theorem burst_forward (tracing : Bool) (budget : Nat) (m : Machine) :
    let b := burst tracing budget 0 [] m.forward
    let b' := burst tracing budget 0 [] m
    b.executed = b'.executed ∧ b.fault = b'.fault ∧ b.lines = b'.lines ∧
      b.machine.forward = b'.machine.forward := by
  apply burst_congr (R := fun m m' ↦ m.forward = m'.forward)
  · intro m m' h
    obtain ⟨ho, hs⟩ := m.step_forward
    obtain ⟨ho', hs'⟩ := m'.step_forward
    rw [h] at ho hs
    have ht := congrArg Machine.traceLine? h
    rw [m.traceLine?_forward, m'.traceLine?_forward] at ht
    exact ⟨ho.symm.trans ho', ht, hs.symm.trans hs'⟩
  · exact m.forward_forward

theorem load_forward (s : Session) (path : String) (read : Except LoadError Image) :
    s.forward.load path read = ((s.load path read).1.forward, (s.load path read).2) := by
  have hf : s.forward.freshMachine = s.freshMachine.forward := rfl
  rw [load, load, hf, Machine.load_forward]
  obtain ⟨m, err | n⟩ := s.freshMachine.load read <;> rfl

theorem togglePause_forward (s : Session) : s.forward.togglePause = s.togglePause.forward := by
  simp only [togglePause, forward, Machine.forward]
  split <;> rfl

theorem setKey_forward (s : Session) (name : String) (down : Bool) :
    s.forward.setKey name down = ((s.setKey name down).1.forward, (s.setKey name down).2) := by
  rw [setKey, setKey]
  cases Keyboard.keyFor? name <;> rfl

theorem toggle_forward (s : Session) (flag : Nat) :
    s.forward.toggle flag = ((s.toggle flag).1.forward, (s.toggle flag).2) := by
  have hs (on : Bool) : (if on then s.forward.machine.setFlag flag
      else s.forward.machine.clearFlag flag) =
      (if on then s.machine.setFlag flag else s.machine.clearFlag flag).forward := by
    cases on <;> rfl
  simp only [toggle, hs]
  rfl

theorem runFrame_forward (s : Session) :
    s.forward.runFrame.2 = s.runFrame.2 ∧ s.forward.runFrame.1.forward = s.runFrame.1.forward := by
  have ha : s.forward.isActive = s.isActive := rfl
  have hb : s.forward.budget = s.budget := rfl
  obtain ⟨hx, hf, hl, hm⟩ := burst_forward s.tracing s.budget.floor.toNat s.machine
  rw [runFrame, runFrame, ha, hb]
  cases s.isActive with
  | false => exact ⟨rfl, s.forward_forward⟩
  | true =>
    simp only [↓reduceIte, forward]
    generalize burst s.tracing s.budget.floor.toNat 0 [] s.machine.forward = b at hx hf hl hm ⊢
    generalize burst s.tracing s.budget.floor.toNat 0 [] s.machine = b' at hx hf hl hm ⊢
    -- Both frames end with a tick, or both with the same fault.
    rw [hf, hx, hl]
    cases b'.fault with
    | none =>
      have ht : b.machine.tick.forward = b'.machine.tick.forward := congrArg Machine.tick hm
      simp only [ht, and_self]
    | some o => simp only [hm, and_self]

theorem perform_forward (s : Session) (e : SessionEvent) :
    (s.forward.perform e).2 = (s.perform e).2 ∧
      (s.forward.perform e).1.forward = (s.perform e).1.forward := by
  cases e with
  | load path read =>
    rw [perform, perform, load_forward]
    exact ⟨rfl, forward_forward _⟩
  | reset =>
    have hr : s.forward.reset = s.reset.forward := rfl
    rw [perform, perform, hr]
    exact ⟨rfl, forward_forward _⟩
  | togglePause =>
    rw [perform, perform, togglePause_forward]
    exact ⟨rfl, forward_forward _⟩
  | toggle b =>
    rw [perform, perform, toggle_forward]
    exact ⟨rfl, forward_forward _⟩
  | frame =>
    obtain ⟨ha, hs⟩ := s.runFrame_forward
    exact ⟨congrArg (fun p : Nat × List String ↦ Answer.ran p.1 p.2) ha, hs⟩
  | press name | release name =>
    simp only [perform, press, release, setKey_forward, forward_forward, and_self]
  | setTracing on =>
    have hr : s.forward.setTracing on = (s.setTracing on).forward := rfl
    rw [perform, perform, hr]
    exact ⟨rfl, forward_forward _⟩
  | stepMachine =>
    obtain ⟨ho, hs⟩ := s.machine.step_forward
    have ht := s.machine.traceLine?_forward
    simp only [perform, stepMachine, forward, ho, hs, ht, and_self]

/-- Whatever a host does with both sessions, the answers are the same, and so are the sessions but
for the number of random numbers that they have used up. -/
def Indistinguishable (s s' : Session) : Prop :=
  ∀ es, s.answers es = s'.answers es ∧ (s.run es).forward = (s'.run es).forward

theorem indistinguishable_of_forward (h : s.forward = s'.forward) : s.Indistinguishable s' := by
  intro es
  apply run_congr (R := fun s s' ↦ s.forward = s'.forward)
  · intro s s' e h
    obtain ⟨ha, hs⟩ := s.perform_forward e
    obtain ⟨ha', hs'⟩ := s'.perform_forward e
    rw [h] at ha hs
    exact ⟨ha.symm.trans ha', hs.symm.trans hs'⟩
  · exact h

theorem rate_pos (cpuHz : Option Rat) : 0 < rate cpuHz := by
  have hd : 0 < Settings.defaultHz := by decide
  unfold rate
  split
  · split
    · assumption
    · exact hd
  · exact hd

theorem perform_cpuHz (s : Session) (e : SessionEvent) : (s.perform e).1.cpuHz = s.cpuHz := by
  cases e with
  | load path read =>
    obtain ⟨image, -, -, hl⟩ | ⟨err, hl⟩ := s.load_cases path read
    · rw [perform, hl, started]
    · rw [perform, hl]
  | togglePause =>
    rw [perform, togglePause]
    split <;> rfl
  | frame =>
    have hf := s.frameTo
    change s.runFrame.1.cpuHz = s.cpuHz
    generalize s.runFrame.1 = s' at hf ⊢
    cases hf <;> rfl
  | press name | release name =>
    simp only [perform, press, release, setKey]
    split <;> rfl
  | reset => rw [perform, reset]
  | toggle b => rw [perform, toggle]
  | setTracing on => rw [perform, setTracing]
  | stepMachine => rw [perform, stepMachine]

theorem load_of_le (s : Session) (path : String) {image : Image}
    (h : image.size ≤ Memory.programLimit) :
    s.load path (.ok image) = (s.started path image, .ok image.size) := by
  rw [load, Machine.load_of_le _ h, started]

def renewed (s : Session) (random : RandomSource) : Session :=
  (new (some s.cpuHz) s.dialect random).setTracing s.tracing

theorem started_renewed {random : RandomSource} (hz : 0 < s.cpuHz)
    (h : random.left = s.machine.random.left) (path : String) (image : Image) :
    (s.started path image).forward = ((s.renewed random).started path image).forward := by
  have hr : rate (some s.cpuHz) = s.cpuHz := if_pos hz
  simp only [started, renewed, new, setTracing, freshMachine, forward, Machine.forward, Machine.new,
    Machine.start, Machine.restart, hr, h]

/-- A load that fails changes the status, and what is done later gives the same answers and the same
session but for the status. After a load that succeeds no host can tell the session from a new one
of the same rate, dialect, tracing and random numbers to come, with the same program in it. -/
theorem load_inert_or_clean_start (cpuHz : Option Rat) (dialect : Dialect) (random : RandomSource)
    (es : List SessionEvent) (path : String) (read : Except LoadError Image) :
    let s := (new cpuHz dialect random).run es
    (∀ err, (s.load path read).2 = .error err →
      (s.load path read).1 = { s with status := err.description } ∧
      ∀ es', (s.load path read).1.answers es' = s.answers es' ∧
        ∃ t, (s.load path read).1.run es' = { s.run es' with status := t }) ∧
    ∀ n, (s.load path read).2 = .ok n →
      ∀ random', random'.left = s.machine.random.left →
        ((s.renewed random').load path read).2 = .ok n ∧
        (s.load path read).1.Indistinguishable ((s.renewed random').load path read).1 := by
  intro s
  have hz : 0 < s.cpuHz := by
    apply run_of_perform (P := fun s ↦ 0 < s.cpuHz)
    · intro s e h
      rwa [perform_cpuHz]
    · exact rate_pos cpuHz
  obtain ⟨image, rfl, hi, hl⟩ | ⟨err, hl⟩ := s.load_cases path read
  · rw [hl]
    refine ⟨nofun, ?_⟩
    intro n hn random' hr
    rw [load_of_le _ _ hi]
    exact ⟨hn, indistinguishable_of_forward (started_renewed hz hr path image)⟩
  · rw [hl]
    refine ⟨?_, nofun⟩
    rintro _ ⟨⟩
    exact ⟨rfl, s.run_status err.description⟩

/-- A paused program, with a key down, part of a step left over and a random number used up. -/
theorem dice_replaced_while_paused :
    let es : List SessionEvent :=
      [.load "dice" (.ok #[0xC0, 0xFF, 0x12, 0x00]), .press "q", .toggle .jumpsByX,
        .setTracing true, .frame, .togglePause]
    let s := (new (some 100) ⟨1⟩ (.cycle [7, 9])).run es
    let failed := s.load "gone" (.error (.notFound "gone"))
    let next := s.load "rom" (.ok #[0xC1, 0xFF])
    let fresh := (s.renewed s.machine.random.left).load "rom" (.ok #[0xC1, 0xFF])
    (s.paused = true ∧ 0 < s.carry ∧ s.machine.random.drawn = 1 ∧
        s.machine.keypad ≠ .initial) ∧
      failed.1 = { s with status := "ROM not found: gone" } ∧
      failed.1.answers [.togglePause, .frame] = s.answers [.togglePause, .frame] ∧
      fresh.2 = .ok 2 ∧ next.1.Indistinguishable fresh.1 := by
  intro es s failed next fresh
  have hs : s.paused = true ∧ 0 < s.carry ∧ s.machine.random.drawn = 1 ∧
      s.machine.keypad ≠ .initial := by decide +kernel
  obtain ⟨hinert, -⟩ := load_inert_or_clean_start (some 100) ⟨1⟩ (.cycle [7, 9]) es "gone"
    (.error (.notFound "gone"))
  obtain ⟨hf, ha⟩ := hinert (.notFound "gone") rfl
  obtain ⟨-, hclean⟩ := load_inert_or_clean_start (some 100) ⟨1⟩ (.cycle [7, 9]) es "rom"
    (.ok #[0xC1, 0xFF])
  obtain ⟨hn, hi⟩ := hclean 2 (congrArg Prod.snd (load_of_le s "rom" (by decide)))
    s.machine.random.left s.machine.random.left_left
  exact ⟨hs, hf, (ha _).1, hn, hi⟩

end Session

end Chip8
