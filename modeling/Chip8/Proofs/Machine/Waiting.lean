import Mathlib.Data.List.Induction
import Chip8.Machine.History
import Chip8.Proofs.Machine.Control

namespace Chip8

namespace Event

def isTick : Event → Bool
  | .tick => true
  | _ => false

def latch? (key : Key) : Event → Option Bool
  | .setKey number down => if Key.ofNumber? number = some key then some down else none
  | _ => none

def latchAfter (key : Key) (down : Bool) (es : List Event) : Bool :=
  es.foldl (fun down e ↦ (e.latch? key).getD down) down

theorem latchAfter_concat (key : Key) (down : Bool) (es : List Event) (e : Event) :
    latchAfter key down (es ++ [e]) = (e.latch? key).getD (latchAfter key down es) := by
  simp only [latchAfter, List.foldl_append, List.foldl_cons, List.foldl_nil]

theorem latchAfter_of_none {key : Key} {down : Bool} {es : List Event}
    (h : ∀ e ∈ es, e.latch? key = none) : latchAfter key down es = down := by
  induction es using List.reverseRecOn with
  | nil => rfl
  | append_singleton es e ih =>
    rw [latchAfter_concat, h e (by simp), ih fun e he ↦ h e (List.mem_append_left _ he)]
    rfl

end Event

namespace Keypad

theorem ext_isDown {k k' : Keypad} (h : ∀ key, k.isDown key = k'.isDown key) : k = k' := by
  obtain ⟨ls⟩ := k
  obtain ⟨ls'⟩ := k'
  rw [Keypad.mk.injEq]
  exact Vector.ext fun i hi ↦ h ⟨i, hi⟩

theorem lowest?_eq_some_iff (k : Keypad) (key : Key) :
    k.lowest? = some key ↔ k.isDown key = true ∧ ∀ j < key, k.isDown j = false := by
  rw [lowest?, List.find?_eq_some_iff_getElem]
  simp only [List.getElem_finRange, List.length_finRange, Bool.not_eq_true']
  constructor
  · rintro ⟨hd, i, hi, rfl, hlow⟩
    exact ⟨hd, fun j hj ↦ hlow j.val hj⟩
  · rintro ⟨hd, hlow⟩
    exact ⟨hd, key.val, key.isLt, rfl, fun j hj ↦ hlow ⟨j, _⟩ hj⟩

theorem isDown_setNumber (k : Keypad) (q : Rat) (down : Bool) (key : Key) :
    (k.setNumber q down).isDown key =
      if Key.ofNumber? q = some key then down else k.isDown key := by
  unfold setNumber
  split
  · next other h => simp only [isDown_set, h, Option.some.injEq]
  · next h => simp only [h, reduceCtorEq, if_false]

theorem exists_lowest {k : Keypad} (h : ∃ key, k.isDown key = true) :
    ∃ key, k.isDown key = true ∧ ∀ j < key, k.isDown j = false := by
  cases hl : k.lowest? with
  | some key => exact ⟨key, (k.lowest?_eq_some_iff key).mp hl⟩
  | none =>
    obtain ⟨key, hk⟩ := h
    rw [k.lowest?_eq_none_iff.mp hl key] at hk
    cases hk

end Keypad

namespace Timers

theorem toNat_repeat_tick (t : Timers) (k : Nat) :
    (Nat.repeat tick k t).delay.toNat = t.delay.toNat - k ∧
      (Nat.repeat tick k t).sound.toNat = t.sound.toNat - k := by
  induction k with
  | zero => exact ⟨rfl, rfl⟩
  | succ k ih =>
    simp only [Nat.repeat, tick, toNat_countDown, ih]
    omega

end Timers

namespace Machine

variable {m n : Machine} {w : UInt16} {e : Event} {es : List Event}

theorem decode?_waitKey (h : Word.IsF w 0x0A) :
    Instruction.decode? w = some (.waitKey (Word.x w)) := by
  obtain ⟨hf, hk⟩ := h
  simp only [Instruction.decode?, hf, Word.toNat_low8, hk]

theorem stepsTo_waitKey (hr : m.running = true) (hw : m.fetch? = some w) (hf : Word.IsF w 0x0A) :
    m.StepsTo (m.execute (.waitKey (Word.x w))) .success :=
  .execute hr hw (decode?_waitKey hf) rfl

theorem step_waits (hr : m.running = true) (hw : m.fetch? = some w) (hf : Word.IsF w 0x0A)
    (hk : ∀ key, m.keypad.isDown key = false) : m.step = (m, .success) := by
  have hx : m.execute (.waitKey (Word.x w)) = m := by
    simp only [execute, (Keypad.lowest?_eq_none_iff _).mpr hk]
  have hs := stepsTo_waitKey hr hw hf
  rw [hx] at hs
  exact hs.step_eq

theorem step_takes_key {key : Key} (hr : m.running = true) (hw : m.fetch? = some w)
    (hf : Word.IsF w 0x0A) (hk : m.keypad.isDown key = true)
    (hlow : ∀ j < key, m.keypad.isDown j = false) :
    m.step = ({ m with v := m.v.set (Word.x w) (UInt8.ofNat key), pc := m.pc + 2 }, .success) := by
  have hx : m.execute (.waitKey (Word.x w)) =
      { m with v := m.v.set (Word.x w) (UInt8.ofNat key), pc := m.pc + 2 } := by
    simp only [execute, (Keypad.lowest?_eq_some_iff _ _).mpr ⟨hk, hlow⟩]
    rfl
  have hs := stepsTo_waitKey hr hw hf
  rw [hx] at hs
  exact hs.step_eq

def QuietSteps (m : Machine) (es : List Event) : Prop :=
  ∀ past rest, es = past ++ .step :: rest → ∀ key, (m.run past).keypad.isDown key = false

theorem QuietSteps.of_concat (h : m.QuietSteps (es ++ [e])) : m.QuietSteps es := by
  rintro past rest rfl
  exact h past (rest ++ [e]) (by simp)

def SameProgram (m n : Machine) : Prop := n = { m with keypad := n.keypad, timers := n.timers }

theorem SameProgram.fetch?_eq (h : m.SameProgram n) : n.fetch? = m.fetch? := by
  rw [h]
  rfl

theorem SameProgram.running_eq (h : m.SameProgram n) : n.running = m.running := by
  rw [h]

theorem SameProgram.apply (h : m.SameProgram n) (he : e.isOrdinary = true)
    (hs : e = .step → n.step.1 = n) : m.SameProgram (n.apply e) := by
  unfold SameProgram at h ⊢
  cases e with
  | step =>
    rw [Machine.apply, hs rfl]
    exact h
  | tick | setKey =>
    rw [h]
    rfl
  | _ => cases he

theorem isDown_apply (m : Machine) (he : e.isOrdinary = true) (key : Key) :
    (m.apply e).keypad.isDown key = (e.latch? key).getD (m.keypad.isDown key) := by
  cases e with
  | step =>
    rw [Machine.apply, m.stepsTo.kept.keypad_eq]
    rfl
  | tick => rfl
  | setKey number down =>
    simp only [Machine.apply, setKeyNumber, Keypad.isDown_setNumber, Event.latch?]
    split <;> rfl
  | _ => cases he

theorem isDown_run (hes : ∀ e ∈ es, e.isOrdinary = true) (key : Key) :
    (m.run es).keypad.isDown key = Event.latchAfter key (m.keypad.isDown key) es := by
  induction es using List.reverseRecOn with
  | nil => rfl
  | append_singleton es e ih =>
    rw [run_append, run_cons, run_nil, isDown_apply _ (hes e (by simp)), Event.latchAfter_concat,
      ih fun e he ↦ hes e (List.mem_append_left _ he)]

section Wait

variable (hr : m.running = true) (hw : m.fetch? = some w) (hf : Word.IsF w 0x0A)
  (hes : ∀ e ∈ es, e.isOrdinary = true) (hq : m.QuietSteps es)
include hr hw hf hes hq

/-- By induction on the history: the program stands where it stood, so that its next step waits too.
-/
theorem QuietSteps.sameProgram : m.SameProgram (m.run es) := by
  induction es using List.reverseRecOn with
  | nil => rfl
  | append_singleton es e ih =>
    have h := ih (fun e he ↦ hes e (List.mem_append_left _ he)) hq.of_concat
    rw [run_append, run_cons, run_nil]
    refine h.apply (hes e (by simp)) ?_
    rintro rfl
    have hs := step_waits (h.running_eq.trans hr) (h.fetch?_eq.trans hw) hf (hq es [] rfl)
    rw [hs]

theorem QuietSteps.step_eq {past rest : List Event} (h : es = past ++ .step :: rest) :
    (m.run past).step = (m.run past, .success) := by
  have hk := hq past rest h
  subst h
  have hp : m.QuietSteps past := by
    rintro past' rest' rfl
    exact hq past' (rest' ++ .step :: rest) (by simp)
  have hs := hp.sameProgram hr hw hf fun e he ↦ hes e (List.mem_append_left _ he)
  exact step_waits (hs.running_eq.trans hr) (hs.fetch?_eq.trans hw) hf hk

theorem QuietSteps.timers_eq :
    (m.run es).timers = Nat.repeat Timers.tick (es.countP Event.isTick) m.timers := by
  induction es using List.reverseRecOn with
  | nil => rfl
  | append_singleton es e ih =>
    have he := hes e (by simp)
    have hi := ih (fun e he ↦ hes e (List.mem_append_left _ he)) hq.of_concat
    rw [run_append, run_cons, run_nil, List.countP_append]
    cases e with
    | step =>
      rw [Machine.apply, hq.step_eq hr hw hf hes rfl]
      exact hi
    | tick => exact congrArg Timers.tick hi
    | setKey => exact hi
    | _ => cases he

end Wait

theorem quietSteps_of_no_step (h : .step ∉ es) : m.QuietSteps es := by
  rintro past rest rfl
  exact absurd (by simp) h

/-- Two histories without a step and with as many ticks come to the same if they leave the same
latches. -/
theorem run_eq_run {es' : List Event} (hr : m.running = true) (hw : m.fetch? = some w)
    (hf : Word.IsF w 0x0A) (hes : ∀ e ∈ es, e.isOrdinary = true) (hs : .step ∉ es)
    (hes' : ∀ e ∈ es', e.isOrdinary = true) (hs' : .step ∉ es')
    (ht : es.countP Event.isTick = es'.countP Event.isTick)
    (hk : ∀ key, (m.run es).keypad.isDown key = (m.run es').keypad.isDown key) :
    m.run es = m.run es' := by
  have hq := quietSteps_of_no_step (m := m) hs
  have hq' := quietSteps_of_no_step (m := m) hs'
  rw [hq.sameProgram hr hw hf hes, hq'.sameProgram hr hw hf hes', hq.timers_eq hr hw hf hes,
    hq'.timers_eq hr hw hf hes', ht, Keypad.ext_isDown hk]

/-- A key that is pressed and released between two steps is not seen. -/
theorem run_press_release {q : Rat} {key : Key} (hr : m.running = true) (hw : m.fetch? = some w)
    (hf : Word.IsF w 0x0A) (hkey : Key.ofNumber? q = some key) (hup : m.keypad.isDown key = false)
    (hes : ∀ e ∈ es, e.isOrdinary = true) (hs : .step ∉ es) (hl : ∀ e ∈ es, e.latch? key = none) :
    m.run (.setKey q true :: es ++ [.setKey q false]) = m.run es := by
  have hpress (e : Event) (he : e ∈ .setKey q true :: es ++ [.setKey q false]) :
      e = .setKey q true ∨ e ∈ es ∨ e = .setKey q false := by
    simpa using he
  have ho : ∀ e ∈ .setKey q true :: es ++ [.setKey q false], e.isOrdinary = true := by
    intro e he
    rcases hpress e he with rfl | he | rfl
    · rfl
    · exact hes e he
    · rfl
  refine run_eq_run hr hw hf ho (by simpa using hs) hes hs (by simp [Event.isTick]) ?_
  intro other
  rw [isDown_run ho, isDown_run hes, Event.latchAfter_concat]
  by_cases h : key = other
  · subst h
    rw [Event.latchAfter_of_none hl, hup]
    simp [Event.latch?, hkey]
  · simp [Event.latch?, hkey, h, Event.latchAfter]

/-- While a program waits for a key at `Fx0A` and no key is down at any of its steps, each step
succeeds and nothing but the latches and the timers changes, which show the key events and the
ticks. If keys are down then, the next step puts the lowest of them into `Vx` and goes on to the
next word. A key that was pressed and released in between changes nothing. -/
theorem wait_unnoticed_until_key (m : Machine) (hr : m.running = true) (hw : m.fetch? = some w)
    (hf : Word.IsF w 0x0A) (hes : ∀ e ∈ es, e.isOrdinary = true) (hq : m.QuietSteps es) :
    let n := m.run es
    (∀ past rest, es = past ++ .step :: rest → (m.run past).step = (m.run past, .success)) ∧
      n = { m with keypad := n.keypad, timers := n.timers } ∧
      n.timers.delay.toNat = m.timers.delay.toNat - es.countP Event.isTick ∧
      n.timers.sound.toNat = m.timers.sound.toNat - es.countP Event.isTick ∧
      (∀ key, n.keypad.isDown key = Event.latchAfter key (m.keypad.isDown key) es) ∧
      ((∃ key, n.keypad.isDown key = true) →
        ∃ key, n.keypad.isDown key = true ∧ (∀ j < key, n.keypad.isDown j = false) ∧
          n.step = ({ n with v := n.v.set (Word.x w) (UInt8.ofNat key), pc := n.pc + 2 }, .success) ∧
          (n.pc + 2).toNat = n.pc.toNat + 2) ∧
      ∀ q key between, Key.ofNumber? q = some key → n.keypad.isDown key = false →
        (∀ e ∈ between, e.isOrdinary = true ∧ e ≠ .step ∧ e.latch? key = none) →
          n.run (.setKey q true :: between ++ [.setKey q false]) = n.run between := by
  intro n
  have hs : m.SameProgram n := hq.sameProgram hr hw hf hes
  have hrun : n.running = true := hs.running_eq.trans hr
  have hword : n.fetch? = some w := hs.fetch?_eq.trans hw
  have ht : n.timers = Nat.repeat Timers.tick (es.countP Event.isTick) m.timers :=
    hq.timers_eq hr hw hf hes
  have hvalue := Timers.toNat_repeat_tick m.timers (es.countP Event.isTick)
  refine ⟨fun past rest h ↦ hq.step_eq hr hw hf hes h, hs, ht ▸ hvalue.1, ht ▸ hvalue.2,
    isDown_run hes, ?_, ?_⟩
  · intro hk
    obtain ⟨key, hd, hlow⟩ := Keypad.exists_lowest hk
    have hpc := pc_le_of_fetch? hword
    exact ⟨key, hd, hlow, step_takes_key hrun hword hf hd hlow, toNat_pc_add_two (by omega)⟩
  · intro q key between hkey hup hb
    exact run_press_release hrun hword hf hkey hup (fun e he ↦ (hb e he).1)
      (fun hstep ↦ (hb _ hstep).2.1 rfl) fun e he ↦ (hb e he).2.2

/-- Key 7 is pressed and released between two steps, and then keys 9 and 4 are down. -/
theorem lowest_of_two_keys_taken :
    let m := (new .plain (.cycle [])).run [.load (.ok #[0xF3, 0x0A])]
    let es : List Event := [.step, .setKey 7 true, .tick, .setKey 7 false, .step, .setKey 9 true,
      .setKey 4 true]
    m.running = true ∧ m.fetch? = some 0xF30A ∧ (m.run es).pc = 0x200 ∧
      (m.run es).step.1.register 3 = 4 ∧ (m.run es).step.1.pc = 0x202 := by
  intro m es
  have hr : m.running = true := by decide +kernel
  have hw : m.fetch? = some 0xF30A := by decide +kernel
  have hpc : m.pc = 0x200 := by decide +kernel
  have hk : ∀ key, m.keypad.isDown key = false ∧ (m.run (es.take 4)).keypad.isDown key = false := by
    decide +kernel
  have hdown : (m.run es).keypad.isDown 4 = true ∧ ∀ j < 4, (m.run es).keypad.isDown j = false := by
    decide +kernel
  have hes : ∀ e ∈ es, e.isOrdinary = true := by simp [es, Event.isOrdinary]
  clear_value m
  have hq : m.QuietSteps es := by
    intro past rest h
    have hp : past = [] ∨ past = es.take 4 := by
      simp only [es, List.cons_eq_append_iff] at h
      simp at h
      exact h.imp And.left And.left
    rcases hp with rfl | rfl
    · exact fun key ↦ (hk key).1
    · exact fun key ↦ (hk key).2
  obtain ⟨-, hn, -, -, -, hkey, -⟩ := wait_unnoticed_until_key m hr hw (by decide) hes hq
  obtain ⟨key, hd, hlow, hs, -⟩ := hkey ⟨4, hdown.1⟩
  have hkey : key = 4 := by
    rcases Nat.lt_trichotomy key.val 4 with h | h | h
    · simp [hdown.2 key h] at hd
    · exact Fin.ext h
    · simp [hlow 4 h] at hdown
  have hstay : (m.run es).pc = 0x200 := by
    rw [hn]
    exact hpc
  subst hkey
  rw [hs, hstay]
  exact ⟨hr, hw, rfl, Vector.getElem_set_self _, rfl⟩

end Machine

end Chip8
