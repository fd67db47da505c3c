import Chip8.Dialect.Behaviour
import Chip8.Proofs.Machine.Present

namespace Chip8

def Word.behaviour? (w : UInt16) : Option Behaviour :=
  match w.toNat / 0x1000 with
  | 0x8 => if w.toNat % 0x10 = 0x6 ∨ w.toNat % 0x10 = 0xE then some .shiftsSecond else none
  | 0xB => some .jumpsByX
  | 0xF => if w.toNat % 0x100 = 0x55 ∨ w.toNat % 0x100 = 0x65 then some .movesIndex else none
  | _ => none

def Instruction.behaviour? : Instruction → Option Behaviour
  | .arith .shiftRight _ _ | .arith .shiftLeft _ _ => some .shiftsSecond
  | .jumpOffset _ _ => some .jumpsByX
  | .storeRegisters _ | .loadRegisters _ => some .movesIndex
  | _ => none

theorem Word.behaviour?_of_decode? {w : UInt16} {i : Instruction}
    (h : Instruction.decode? w = some i) : Word.behaviour? w = i.behaviour? := by
  have h₄ : (Word.low4 w).val = w.toNat % 0x10 := rfl
  have h₈ := Word.toNat_low8 w
  simp only [Instruction.decode?, h₄, h₈] at h
  unfold Word.behaviour?
  generalize w.toNat % 0x10 = low4 at h ⊢
  generalize w.toNat % 0x100 = low8 at h ⊢
  split at h <;> rename_i hd <;> simp only [hd]
  case h_1 =>
    split at h
    · cases h
      rfl
    · split at h <;> cases h
      rfl
  case h_6 | h_10 =>
    split at h <;> cases h
    rfl
  case h_9 =>
    obtain ⟨op, ho, rfl⟩ := Option.map_eq_some_iff.mp h
    unfold Arith.ofCode? at ho
    split at ho <;> cases ho <;> rfl
  case h_15 | h_16 => split at h <;> cases h <;> rfl
  case h_17 => cases h
  all_goals
    cases h
    rfl

def Event.redialect (e : Event) (d : Dialect) : Dialect :=
  match e with
  | .setFlag flag => d.set flag
  | .clearFlag flag => d.clear flag
  | .reset dialect => dialect.getD d
  | _ => d

theorem Event.testBit_redialect (e : Event) {d d' : Dialect} {k : Nat}
    (h : d.bits.testBit k = d'.bits.testBit k) :
    (e.redialect d).bits.testBit k = (e.redialect d').bits.testBit k := by
  cases e with
  | setFlag flag => simp only [redialect, Dialect.testBit_set, h]
  | clearFlag flag => simp only [redialect, Dialect.testBit_clear, h]
  | reset dialect =>
    cases dialect with
    | none => exact h
    | some d => rfl
  | _ => exact h

namespace Machine

variable {m m' : Machine} {i : Instruction} {o : Outcome} {d d' : Dialect} {b : Behaviour}
  {bit : Nat} {es es' : List Event}

def recast (m : Machine) (d : Dialect) : Machine := { m with dialect := d, random := m.random.left }

@[simp] theorem recast_recast (m : Machine) (d d' : Dialect) :
    (m.recast d).recast d' = m.recast d' := by
  simp [recast]

theorem recast_of_eq (d : Dialect) (h : m' = m.recast d) (d' : Dialect) :
    m'.recast d' = m.recast d' := by
  rw [h, recast_recast]

def Alike (m m' : Machine) : Prop := m.recast .plain = m'.recast .plain

theorem Alike.recast (h : m.Alike m') (d : Dialect) : m.recast d = m'.recast d := by
  rw [← recast_recast m .plain d, h, recast_recast]

theorem advanceOver_recast (m : Machine) (d : Dialect) (skip : Bool) :
    (m.recast d).advanceOver skip = (m.advanceOver skip).recast d := by
  cases skip <;> rfl

theorem indexAfter_recast (h : d.has Dialect.movesIndex = m.dialect.has Dialect.movesIndex)
    (count : Nat) : (m.recast d).indexAfter count = m.indexAfter count := by
  unfold indexAfter
  rw [show (m.recast d).dialect = d from rfl, h]
  rfl

theorem fault?_recast (m : Machine) (d : Dialect) (i : Instruction) :
    (m.recast d).fault? i = m.fault? i := by
  cases i <;> rfl

theorem execute_recast (h : ∀ b ∈ i.behaviour?, d.has b.flag = m.dialect.has b.flag)
    (d' : Dialect) : ((m.recast d).execute i).recast d' = (m.execute i).recast d' := by
  cases i with
  | random x kk =>
    obtain ⟨hn, hs⟩ := m.random.next_left
    simp [execute, advance, goTo, setRegister, recast, hn, hs]
  | ret => cases hs : m.stack <;> simp [execute, recast, hs]
  | waitKey x =>
    cases hk : m.keypad.lowest? <;> simp [execute, advance, goTo, setRegister, recast, hk]
  | skipIfByte | skipUnlessByte | skipIfEqual | skipUnlessEqual | skipIfKey | skipUnlessKey =>
    exact recast_of_eq d (advanceOver_recast m d _) d'
  | arith op x y =>
    cases op with
    | shiftRight =>
      have hs : d.has Dialect.shiftsSecond = m.dialect.has Dialect.shiftsSecond :=
        h .shiftsSecond rfl
      apply recast_of_eq d
      simp only [execute, executeArith, show (m.recast d).dialect = d from rfl, hs]
      rfl
    | shiftLeft =>
      have hs : d.has Dialect.shiftsSecond = m.dialect.has Dialect.shiftsSecond :=
        h .shiftsSecond rfl
      apply recast_of_eq d
      simp only [execute, executeArith, show (m.recast d).dialect = d from rfl, hs]
      rfl
    | _ =>
      apply recast_of_eq d
      rfl
  | jumpOffset x a =>
    have hs : d.has Dialect.jumpsByX = m.dialect.has Dialect.jumpsByX := h .jumpsByX rfl
    apply recast_of_eq d
    simp only [execute, show (m.recast d).dialect = d from rfl, hs]
    rfl
  | storeRegisters x =>
    apply recast_of_eq d
    rw [execute, indexAfter_recast (h .movesIndex rfl)]
    rfl
  | loadRegisters x =>
    apply recast_of_eq d
    rw [execute, indexAfter_recast (h .movesIndex rfl)]
    rfl
  | _ =>
    apply recast_of_eq d
    rfl

def behaviour? (m : Machine) : Option Behaviour := m.fetch?.bind Word.behaviour?

/-- A step that fails reads no bit at all. -/
theorem StepsTo.recast (h : m.StepsTo m' o) (d d' : Dialect)
    (hd : o = .success → ∀ b ∈ m.behaviour?, d.has b.flag = m.dialect.has b.flag) :
    ∃ n, (m.recast d).StepsTo n o ∧ n.recast d' = m'.recast d' := by
  cases h with
  | idle hr => exact ⟨_, .idle hr, recast_recast m d d'⟩
  | noWord hr hw => exact ⟨_, .noWord hr hw, recast_recast m d d'⟩
  | noInstruction hr hw hi => exact ⟨_, .noInstruction hr hw hi, recast_recast m d d'⟩
  | @fault w i o hr hw hi ho =>
    exact ⟨_, .fault hr hw hi ((fault?_recast m d i).trans ho), recast_recast m d d'⟩
  | @execute w i hr hw hi ho =>
    refine ⟨_, .execute hr hw hi ((fault?_recast m d i).trans ho), execute_recast ?_ d'⟩
    intro b hb
    apply hd rfl b
    rw [behaviour?, hw, Option.bind_some, Word.behaviour?_of_decode? hi]
    exact hb

theorem step_recast (m : Machine) (d d' : Dialect)
    (hd : m.step.2 = .success → ∀ b ∈ m.behaviour?, d.has b.flag = m.dialect.has b.flag) :
    (m.recast d).step.2 = m.step.2 ∧ (m.recast d).step.1.recast d' = m.step.1.recast d' := by
  obtain ⟨n, hn, he⟩ := m.stepsTo.recast d d' hd
  rw [hn.step_eq]
  exact ⟨rfl, he⟩

theorem load_recast (m : Machine) (d : Dialect) (read : Except LoadError Image) :
    (m.recast d).load read = ((m.load read).1.recast d, (m.load read).2) := by
  unfold load
  cases read.bind LoadError.checkImage <;> rfl

def executed? (m : Machine) : Event → Option Behaviour
  | .step => if m.step.2 = .success then m.behaviour? else none
  | _ => none

theorem apply_recast (m : Machine) (d d' : Dialect) (e : Event)
    (hd : ∀ b ∈ m.executed? e, d.has b.flag = m.dialect.has b.flag) :
    (m.recast d).answer e = m.answer e ∧
      ((m.recast d).apply e).recast d' = (m.apply e).recast d' := by
  cases e with
  | step =>
    obtain ⟨ho, hs⟩ := m.step_recast d d' fun ho b hb ↦ hd b (by rwa [executed?, if_pos ho])
    exact ⟨congrArg Answer.stepped ho, hs⟩
  | load read =>
    have hl := m.load_recast d read
    constructor
    · rw [answer, hl]
      rfl
    · rw [apply, hl]
      exact recast_recast _ d d'
  | _ =>
    refine ⟨rfl, ?_⟩
    simp [apply, tick, setKeyNumber, setFlag, clearFlag, reset, restart, poke, recast]

theorem Alike.apply (h : m.Alike m') (e : Event)
    (hd : ∀ b ∈ m.executed? e, m.dialect.has b.flag = m'.dialect.has b.flag) :
    m.answer e = m'.answer e ∧ (m.apply e).Alike (m'.apply e) := by
  -- Both are compared with the first machine in the dialect of the second.
  obtain ⟨ha, hs⟩ := m.apply_recast m'.dialect .plain e fun b hb ↦ (hd b hb).symm
  obtain ⟨ha', hs'⟩ := m'.apply_recast m'.dialect .plain e fun _ _ ↦ rfl
  rw [h.recast m'.dialect] at ha hs
  exact ⟨ha.symm.trans ha', hs.symm.trans hs'⟩

theorem apply_dialect (m : Machine) (e : Event) : (m.apply e).dialect = e.redialect m.dialect := by
  cases e with
  | step => exact m.stepsTo.kept.dialect_eq
  | load read =>
    rw [apply, load]
    cases read.bind LoadError.checkImage with
    | error e => rfl
    | ok image => simp [start, restart, Event.redialect]
  | _ => rfl

def Avoids (bit : Nat) (m : Machine) : List Event → Prop
  | [] => True
  | e :: es => (m.executed? e).map Behaviour.bit ≠ some bit ∧ (m.apply e).Avoids bit es

structure AlikeBut (bit : Nat) (m m' : Machine) : Prop where
  alike : m.Alike m'
  testBit_eq : ∀ k, k ≠ bit → m.dialect.bits.testBit k = m'.dialect.bits.testBit k

theorem AlikeBut.apply (h : m.AlikeBut bit m') (e : Event)
    (he : (m.executed? e).map Behaviour.bit ≠ some bit) :
    m.answer e = m'.answer e ∧ (m.apply e).AlikeBut bit (m'.apply e) := by
  have hd : ∀ b ∈ m.executed? e, m.dialect.has b.flag = m'.dialect.has b.flag := by
    intro b hb
    rw [Behaviour.flag, Dialect.has_shiftLeft, Dialect.has_shiftLeft]
    apply h.testBit_eq
    intro hbit
    apply he
    rw [hb, ← hbit]
    rfl
  obtain ⟨ha, hs⟩ := h.alike.apply e hd
  refine ⟨ha, hs, ?_⟩
  intro k hk
  rw [apply_dialect, apply_dialect]
  exact e.testBit_redialect (h.testBit_eq k hk)

theorem Avoids.left (h : m.Avoids bit (es ++ es')) : m.Avoids bit es := by
  induction es generalizing m with
  | nil => trivial
  | cons e es ih => exact ⟨h.1, ih h.2⟩

end Machine

inductive BitChange
  | set
  | clear
  | toggle
  deriving DecidableEq

def BitChange.apply (c : BitChange) (bit : Nat) (d : Dialect) : Dialect :=
  match c with
  | set => d.set (1 <<< bit)
  | clear => d.clear (1 <<< bit)
  | toggle => d.toggle (1 <<< bit)

theorem BitChange.testBit_apply (c : BitChange) {bit k : Nat} (d : Dialect) (h : k ≠ bit) :
    (c.apply bit d).bits.testBit k = d.bits.testBit k := by
  have hf : (1 <<< bit).testBit k = false := by
    rw [Dialect.testBit_one_shiftLeft]
    exact decide_eq_false (Ne.symm h)
  cases c with
  | set => rw [apply, Dialect.testBit_set, hf, Bool.or_false]
  | clear => rw [apply, Dialect.testBit_clear, hf, Bool.not_false, Bool.and_true]
  | toggle => rw [apply, Dialect.testBit_toggle, hf, Bool.xor_false]

inductive Turn
  | event (e : Event)
  | change (c : BitChange)

def Turn.event? : Turn → Option Event
  | event e => some e
  | change _ => none

def Turn.events (ts : List Turn) : List Event := ts.filterMap event?

theorem Turn.events_append (ts ts' : List Turn) : events (ts ++ ts') = events ts ++ events ts' :=
  List.filterMap_append

namespace Machine

variable {m m' : Machine} {bit : Nat} {ts : List Turn}

def changeBit (bit : Nat) (m : Machine) (c : BitChange) : Machine :=
  { m with dialect := c.apply bit m.dialect }

def turn (bit : Nat) (m : Machine) : Turn → Machine
  | .event e => m.apply e
  | .change c => m.changeBit bit c

def runTurns (bit : Nat) (m : Machine) (ts : List Turn) : Machine := ts.foldl (turn bit) m

def turnAnswers (bit : Nat) (m : Machine) : List Turn → List Answer
  | [] => []
  | .event e :: ts => m.answer e :: (m.apply e).turnAnswers bit ts
  | .change c :: ts => (m.changeBit bit c).turnAnswers bit ts

theorem AlikeBut.changeBit (h : m.AlikeBut bit m') (c : BitChange) :
    m.AlikeBut bit (m'.changeBit bit c) where
  alike := h.alike
  testBit_eq k hk := (h.testBit_eq k hk).trans (c.testBit_apply m'.dialect hk).symm

theorem AlikeBut.runTurns (h : m.AlikeBut bit m') (ha : m.Avoids bit (Turn.events ts)) :
    m'.turnAnswers bit ts = m.answers (Turn.events ts) ∧
      (m.run (Turn.events ts)).AlikeBut bit (m'.runTurns bit ts) := by
  induction ts generalizing m m' with
  | nil => exact ⟨rfl, h⟩
  | cons t ts ih =>
    cases t with
    | event e =>
      obtain ⟨he, hm⟩ := h.apply e ha.1
      obtain ⟨has, hr⟩ := ih hm ha.2
      exact ⟨congr (congrArg List.cons he.symm) has, hr⟩
    | change c => exact ih (h.changeBit c) ha

/-- A step of two machines that agree in everything but the dialect, and in the bit of the word at
`pc` as well, comes to the same and leaves them such again. So a bit that no executed instruction
depends on can be set, cleared and flipped at any points of a history: nothing that the events
answer and nothing of the machine changes at any time, but that bit. -/
theorem dialect_bits_independent (m : Machine) :
    (∀ m', m.Alike m' →
      (∀ b, m.fetch?.bind Word.behaviour? = some b →
        m.dialect.bits.testBit b.bit = m'.dialect.bits.testBit b.bit) →
      m.step.2 = m'.step.2 ∧ m.step.1.Alike m'.step.1 ∧ m.step.1.dialect = m.dialect ∧
        m'.step.1.dialect = m'.dialect) ∧
    ∀ bit ts, m.Avoids bit (Turn.events ts) →
      m.turnAnswers bit ts = m.answers (Turn.events ts) ∧
      ∀ n, let before := ts.take n
        (m.run (Turn.events before)).Alike (m.runTurns bit before) ∧
        ∀ k, k ≠ bit → (m.run (Turn.events before)).dialect.bits.testBit k =
          (m.runTurns bit before).dialect.bits.testBit k := by
  refine ⟨?_, ?_⟩
  · intro m' h hd
    have hs := h.apply .step (by
      intro b hb
      rw [Behaviour.flag, Dialect.has_shiftLeft, Dialect.has_shiftLeft]
      apply hd
      rw [executed?] at hb
      split at hb
      · exact hb
      · cases hb)
    exact ⟨Answer.stepped.inj hs.1, hs.2, m.stepsTo.kept.dialect_eq, m'.stepsTo.kept.dialect_eq⟩
  · intro bit ts ha
    have h₀ : m.AlikeBut bit m := ⟨rfl, fun _ _ ↦ rfl⟩
    refine ⟨(h₀.runTurns ha).1, ?_⟩
    intro n before
    have hb : m.Avoids bit (Turn.events before) := by
      rw [← List.take_append_drop n ts, Turn.events_append] at ha
      exact ha.left
    obtain ⟨-, hr⟩ := h₀.runTurns hb
    exact ⟨hr.alike, hr.testBit_eq⟩

/-- A shift and a transfer, between which the bit of the jump is flipped. -/
theorem jump_bit_flipped_between_steps :
    let m := (new ⟨4⟩ (.cycle [7])).run [.load (.ok #[0x80, 0x16, 0xF1, 0x55, 0x12, 0x00])]
    let m' := m.setFlag 2
    let ts : List Turn := [.event .step, .change .toggle, .event .step, .event .tick]
    m.Alike m' ∧ m.fetch?.bind Word.behaviour? = some .shiftsSecond ∧ m.step.2 = m'.step.2 ∧
      m.Avoids 1 (Turn.events ts) ∧
      (m.run (Turn.events (ts.take 3))).Alike (m.runTurns 1 (ts.take 3)) ∧
      (m.run (Turn.events (ts.take 3))).index = 2 ∧
      (m.runTurns 1 (ts.take 3)).dialect = ⟨6⟩ := by
  intro m m' ts
  obtain ⟨hstep, hrun⟩ := dialect_bits_independent m
  have hflag (n : Machine) : n.Alike (n.setFlag 2) := rfl
  have hw : m.fetch?.bind Word.behaviour? = some .shiftsSecond := by decide +kernel
  have hb : m.dialect.bits.testBit 0 = m'.dialect.bits.testBit 0 := by decide +kernel
  have ho : m.step.2 = m'.step.2 := by
    refine (hstep m' (hflag m) ?_).1
    intro b h
    rw [hw] at h
    cases h
    exact hb
  have ha : m.Avoids 1 (Turn.events ts) :=
    ⟨by decide +kernel, by decide +kernel, by decide +kernel, trivial⟩
  have hi : (m.run (Turn.events (ts.take 3))).index = 2 := by decide +kernel
  have hd : (m.runTurns 1 (ts.take 3)).dialect = ⟨6⟩ := by decide +kernel
  exact ⟨hflag m, hw, ho, ha, ((hrun 1 ts ha).2 3).1, hi, hd⟩

end Machine

end Chip8
