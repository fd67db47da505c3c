import Mathlib.Data.List.Induction
import Chip8.Proofs.Machine.Footprint

namespace Chip8

inductive Timer
  | delay
  | sound

structure Occurrence where
  machine : Machine
  event : Event

def Machine.occurrences (m : Machine) : List Event → List Occurrence
  | [] => []
  | e :: es => (m.apply e).occurrences es ++ [⟨m, e⟩]

namespace Occurrence

def isStart (o : Occurrence) : Bool :=
  match o.event with
  | .load read => (o.machine.load read).2.isOk
  | .reset _ => true
  | _ => false

def isTick (o : Occurrence) : Bool :=
  match o.event with
  | .tick => true
  | _ => false

def sinceStart (os : List Occurrence) : List Occurrence := os.takeWhile (!·.isStart)

end Occurrence

namespace Timer

def value (timers : Timers) : Timer → UInt8
  | delay => timers.delay
  | sound => timers.sound

def code : Timer → Nat
  | delay => 0x15
  | sound => 0x18

def given? (t : Timer) (o : Occurrence) : Option UInt8 :=
  match o.event, o.machine.step.2, o.machine.fetch? with
  | .step, .success, some w =>
    if Word.IsF w t.code then some (o.machine.register (Word.x w)) else none
  | _, _, _ => none

def lastGiven (t : Timer) (os : List Occurrence) : Nat :=
  (((Occurrence.sinceStart os).findSome? t.given?).getD 0).toNat

def ticksSince (t : Timer) (os : List Occurrence) : Nat :=
  ((Occurrence.sinceStart os).takeWhile (t.given? · |>.isNone)).countP (·.isTick)

end Timer

namespace Machine

variable {m m' : Machine} {w : UInt16} {i : Instruction} {e : Event}

theorem occurrences_concat (m : Machine) (es : List Event) (e : Event) :
    m.occurrences (es ++ [e]) = ⟨m.run es, e⟩ :: m.occurrences es := by
  induction es generalizing m with
  | nil => rfl
  | cons e' es ih => rw [List.cons_append, occurrences, ih, run_cons, List.cons_append, occurrences]

theorem decode?_readDelay (h : Word.IsF w 0x07) :
    Instruction.decode? w = some (.readDelay (Word.x w)) := by
  obtain ⟨hf, hk⟩ := h
  simp only [Instruction.decode?, hf, Word.toNat_low8, hk]

end Machine

namespace Timer

open Machine

variable {t : Timer} {m : Machine} {w : UInt16} {i : Instruction} {e : Event} {b : UInt8}
  {os : List Occurrence}

theorem decode?_code (h : Word.IsF w t.code) :
    Instruction.decode? w = some (match t with
      | delay => .setDelay (Word.x w)
      | sound => .setSound (Word.x w)) := by
  obtain ⟨hf, hk⟩ := h
  cases t <;> simp only [Instruction.decode?, hf, Word.toNat_low8, hk, code]

theorem value_execute (hw : Instruction.decode? w = some i) (ho : m.fault? i = none) (t : Timer) :
    t.value (m.execute i).timers =
      if Word.IsF w t.code then m.register (Word.x w) else t.value m.timers := by
  split
  · next h =>
    rw [decode?_code h] at hw
    cases t <;> cases hw <;> rfl
  · next h =>
    have hs := execute_frame hw ho
    cases t with
    | delay => exact hs .delay h
    | sound => exact hs .sound h

inductive Moves (t : Timer) (m : Machine) (e : Event) : UInt8 → Prop
  | clear (hs : Occurrence.isStart ⟨m, e⟩ = true) : Moves t m e 0
  | give {b : UInt8} (hs : Occurrence.isStart ⟨m, e⟩ = false) (hg : t.given? ⟨m, e⟩ = some b) :
      Moves t m e b
  | tick (hs : Occurrence.isStart ⟨m, e⟩ = false) (hg : t.given? ⟨m, e⟩ = none)
      (ht : Occurrence.isTick ⟨m, e⟩ = true) : Moves t m e (Timers.countDown (t.value m.timers))
  | keep (hs : Occurrence.isStart ⟨m, e⟩ = false) (hg : t.given? ⟨m, e⟩ = none)
      (ht : Occurrence.isTick ⟨m, e⟩ = false) : Moves t m e (t.value m.timers)

theorem given?_of_success (ho : m.step.2 = .success) (hw : m.fetch? = some w) (t : Timer) :
    t.given? ⟨m, .step⟩ = if Word.IsF w t.code then some (m.register (Word.x w)) else none := by
  simp only [given?, ho, hw]

theorem given?_of_ne_success (ho : m.step.2 ≠ .success) (t : Timer) :
    t.given? ⟨m, .step⟩ = none := by
  unfold given?
  split
  · next h _ => exact absurd h ho
  · rfl

theorem moves_step (m : Machine) (t : Timer) : t.Moves m .step (t.value m.step.1.timers) := by
  by_cases ho : m.step.2 = .success
  · have hs := m.stepsTo
    rw [ho] at hs
    generalize m.step.1 = m' at hs
    cases hs with
    | fault hr hw hi hf => cases fault?_pc hf
    | execute hr hw hi hf =>
      have hg := given?_of_success ho hw t
      rw [value_execute hi hf]
      split
      · next h => exact .give rfl (hg.trans (if_pos h))
      · next h => exact .keep rfl (hg.trans (if_neg h)) rfl
  · rw [step_of_ne_success ho]
    exact .keep rfl (given?_of_ne_success ho t) rfl

theorem moves (m : Machine) (e : Event) (t : Timer) : t.Moves m e (t.value (m.apply e).timers) := by
  cases e with
  | load read =>
    have hs : Occurrence.isStart ⟨m, .load read⟩ = (m.load read).2.isOk := rfl
    rw [Machine.apply]
    unfold load at hs ⊢
    cases hr : read.bind LoadError.checkImage with
    | ok image =>
      rw [hr] at hs
      cases t <;> exact .clear hs
    | error err =>
      rw [hr] at hs
      exact .keep hs rfl rfl
  | reset dialect => cases t <;> exact .clear rfl
  | step => exact moves_step m t
  | tick => cases t <;> exact .tick rfl rfl rfl
  | _ => exact .keep rfl rfl rfl

theorem Moves.countdown (h : t.Moves m e b)
    (hm : (t.value m.timers).toNat = t.lastGiven os - t.ticksSince os) :
    b.toNat = t.lastGiven (⟨m, e⟩ :: os) - t.ticksSince (⟨m, e⟩ :: os) := by
  unfold lastGiven ticksSince Occurrence.sinceStart at hm ⊢
  cases h with
  | clear hs => simp [hs]
  | give hs hg => simp [hs, hg]
  | tick hs hg ht =>
    rw [Timers.toNat_countDown, hm]
    simp only [List.takeWhile_cons, hs, hg, ht, List.findSome?_cons, List.countP_cons, Bool.not_false,
      Option.isNone_none, if_true]
    omega
  | keep hs hg ht =>
    rw [hm]
    simp [hs, hg, ht]

theorem value_run (hm : t.value m.timers = 0) (es : List Event) :
    (t.value (m.run es).timers).toNat =
      t.lastGiven (m.occurrences es) - t.ticksSince (m.occurrences es) := by
  induction es using List.reverseRecOn with
  | nil =>
    rw [run_nil, hm]
    rfl
  | append_singleton es e ih =>
    rw [run_append, run_cons, run_nil, occurrences_concat]
    exact (moves (m.run es) e t).countdown ih

end Timer

namespace Machine

/-- After any history each timer shows the value that the program gave it last, less the ticks after
that, and a step at `Fx07` succeeds and puts what the delay shows into `Vx`. -/
theorem timers_follow_ticks (dialect : Dialect) (random : RandomSource) (es : List Event) :
    let m := (new dialect random).run es
    let past := (new dialect random).occurrences es
    (∀ t : Timer, (t.value m.timers).toNat = t.lastGiven past - t.ticksSince past) ∧
      ∀ w, m.running = true → m.fetch? = some w → Word.IsF w 0x07 →
        ∃ m', m.step = (m', .success) ∧ (m'.register (Word.x w)).toNat =
          Timer.delay.lastGiven past - Timer.delay.ticksSince past := by
  intro m past
  have ht (t : Timer) : (t.value m.timers).toNat = t.lastGiven past - t.ticksSince past :=
    Timer.value_run (by cases t <;> rfl) es
  refine ⟨ht, ?_⟩
  intro w hr hw hf
  have hv : (m.execute (.readDelay (Word.x w))).register (Word.x w) = m.timers.delay :=
    Vector.getElem_set_self _
  refine ⟨m.execute (.readDelay (Word.x w)), ?_, ?_⟩
  · simp only [step, hr, hw, decode?_readDelay hf]
    rfl
  · rw [← ht .delay, hv]
    rfl

/-- The delay is read after two ticks, with a load between them that fails. -/
theorem delay_read_after_failed_load :
    let es : List Event := [.load (.ok #[0x60, 0x05, 0xF0, 0x15, 0xF1, 0x07]), .step, .step, .tick,
      .load (.error (.notFound "rom.ch8")), .tick]
    let m := (new .plain (.cycle [])).run es
    m.running = true ∧ m.fetch? = some 0xF107 ∧ m.timers.delay = 3 ∧
      ∃ m', m.step = (m', .success) ∧ (m'.register 1).toNat = 5 - 2 := by
  intro es m
  have hr : m.running = true := by decide +kernel
  have hw : m.fetch? = some 0xF107 := by decide +kernel
  have hd : Timer.delay.lastGiven ((new .plain (.cycle [])).occurrences es) = 5 := by
    decide +kernel
  have ht : Timer.delay.ticksSince ((new .plain (.cycle [])).occurrences es) = 2 := by
    decide +kernel
  obtain ⟨hv, hread⟩ := timers_follow_ticks .plain (.cycle []) es
  obtain ⟨m', hs, hm⟩ := hread 0xF107 hr hw (by decide)
  have hv' := hv .delay
  rw [hd, ht] at hm hv'
  exact ⟨hr, hw, UInt8.toNat_inj.mp hv', m', hs, hm⟩

end Machine

end Chip8
