import Chip8.Proofs.Run.Pace
import Chip8.Tool.Tracer

namespace Chip8.Run

variable {every budget n k s : Nat} {m m' : Machine} {o : Outcome} {lines : List String}

/-- The loop that goes on through jumps to themselves, without its trace: the steps that succeeded,
the failure of the next one, if there was one, and the machine. -/
def plain (every budget : Nat) (m : Machine) : Nat × Option Outcome × Machine :=
  let t := Tracer.continueFrom every budget 0 [] m
  (t.steps, t.fault, t.machine)

/-- Whatever time and keys do, the next step succeeds and no step does anything. -/
def Settled (m : Machine) : Prop :=
  ∀ es : List Event, (∀ e ∈ es, e.isOrdinary = true) →
    (m.run es).step.2 = .success ∧
      ∃ timers keypad, m.run es = { m with timers := timers, keypad := keypad }

theorem settled_of_atSelfJump (hr : m.running = true) (hl : m.atSelfJump = true) : Settled m := by
  intro es hes
  obtain ⟨t, k, hm⟩ := Machine.run_of_atSelfJump hr hl es hes
  refine ⟨?_, t, k, hm⟩
  rw [hm, Machine.step_of_atSelfJump (m := { m with timers := t, keypad := k }) hr hl]

theorem Paced.trace (h : Paced every n s m m') (budget : Nat) (lines : List String) :
    ∃ lines', Tracer.continueFrom every (n + budget) s lines m =
      Tracer.continueFrom every budget (s + n) lines' m' := by
  induction h generalizing lines with
  | zero s m => exact ⟨lines, by rw [Nat.zero_add, Nat.add_zero]⟩
  | @cons n s m next m' hs h ih =>
    obtain ⟨lines', hl⟩ := ih (m.traceLine?.toList ++ lines)
    refine ⟨lines', ?_⟩
    rw [Nat.add_right_comm, Tracer.continueFrom, hs, ← Nat.add_assoc, Nat.add_right_comm s n 1]
    exact hl

theorem Paced.plain (h : Paced every n 0 m m') : plain every n m = (n, none, m') := by
  obtain ⟨lines, hl⟩ := h.trace 0 []
  rw [Nat.add_zero, Nat.zero_add] at hl
  simp only [Run.plain, hl, Tracer.continueFrom]

theorem Paced.plain_fault (h : Paced every n 0 m m') (hn : n < budget) (ho : o ≠ .success)
    (hs : m'.step = (m', o)) : Run.plain every budget m = (n, some o, m') := by
  obtain ⟨b, rfl⟩ := Nat.exists_eq_add_of_lt hn
  obtain ⟨lines, hl⟩ := h.trace (b + 1) []
  have hf : Tracer.continueFrom every (b + 1) n lines m' =
      ⟨m', n, m'.traceLine?.toList ++ lines, some o⟩ := by
    rw [Tracer.continueFrom, hs]
    cases o with
    | success => exact absurd rfl ho
    | _ => rfl
  rw [Nat.zero_add, hf] at hl
  rw [Run.plain, Nat.add_assoc, hl]

def Report.Sound (every budget : Nat) (m : Machine) (r : Report) : Prop :=
  match r.stop with
  | .timeout => r.steps = budget ∧ plain every budget m = (budget, none, r.machine)
  | .fault o => o ≠ .success ∧ plain every budget m = (r.steps, some o, r.machine)
  | .loop =>
    plain every r.steps m = (r.steps, none, r.machine) ∧ Settled r.machine ∧
      ∃ timers, plain every budget m = (budget, none, { r.machine with timers := timers })

theorem continueFrom_sound (hr : m.running = true) (every budget : Nat) :
    (continueFrom every budget 0 m).Sound every budget m := by
  have h := continueFrom_ends every budget 0 m
  generalize continueFrom every budget 0 m = r at h ⊢
  cases h with
  | timeout h => exact ⟨Nat.zero_add budget, h.plain⟩
  | @fault n _ _ h hn ho hs =>
    rw [Nat.zero_add n]
    exact ⟨ho, h.plain_fault hn ho hs⟩
  | @loop n _ h hn hl =>
    have hr' := h.running.trans hr
    have hall := h.trans (paced_of_atSelfJump hr' hl (budget - n) (0 + n))
    rw [Nat.add_sub_cancel' (Nat.le_of_lt hn)] at hall
    rw [Nat.zero_add n]
    exact ⟨h.plain, settled_of_atSelfJump hr' hl, _, hall.plain⟩

/-- Loop detection changes no outcome, and a run that stopped by itself comes to the same with any
larger budget. -/
theorem early_exit_changes_no_outcome (dialect : Dialect) (random : RandomSource)
    (every budget : Nat) (image : Image) :
    match program dialect random every budget image with
    | .error e =>
      (Machine.new dialect random).load (.ok image) = (Machine.new dialect random, .error e)
    | .ok r =>
      ∃ m, (Machine.new dialect random).load (.ok image) = (m, .ok image.size) ∧
        r.Sound every budget m ∧ r.steps ≤ budget ∧
        (r.stop ≠ .timeout →
          ∀ budget' ≥ budget, program dialect random every budget' image = .ok r) := by
  rcases Nat.lt_or_ge Memory.programLimit image.size with hi | hi
  · simp only [program, Machine.load_of_lt _ hi]
  · simp only [program_of_le _ _ _ _ hi]
    have hends := continueFrom_ends every budget 0 ((Machine.new dialect random).start image)
    have hle := hends.steps_le
    rw [Nat.zero_add] at hle
    refine ⟨_, Machine.load_of_le _ hi, continueFrom_sound rfl every budget, hle, ?_⟩
    intro hs budget' hb
    exact congrArg Except.ok (continueFrom_mono hb hs)

/-- The delay is set to five. One program then ticks after every second step and ends in a jump to
itself, at which it would have gone on ticking; the other one ticks after every step and returns
from nowhere. -/
theorem ticking_loop_and_fault_sound :
    let loops : Image := #[0x6A, 0x05, 0xFA, 0x15, 0x6B, 0x01, 0x6C, 0x01, 0x12, 0x08]
    let fails : Image := #[0x6A, 0x05, 0xFA, 0x15, 0x00, 0xEE]
    let m := Machine.new .plain (.cycle [])
    (∃ r, program .plain (.cycle []) 2 10 loops = .ok r ∧ r.steps = 4 ∧ r.stop = .loop ∧
        r.machine.timers.delay = 3 ∧ r.Sound 2 10 (m.start loops) ∧
        program .plain (.cycle []) 2 1000 loops = .ok r) ∧
      ∃ r, program .plain (.cycle []) 1 7 fails = .ok r ∧ r.steps = 2 ∧
        r.stop = .fault (.stackEmpty 0x204) ∧ r.machine.timers.delay = 4 ∧
        r.Sound 1 7 (m.start fails) ∧ program .plain (.cycle []) 1 1000 fails = .ok r := by
  intro loops fails m
  have hl : program .plain (.cycle []) 2 10 loops = .ok (continueFrom 2 10 0 (m.start loops)) :=
    program_of_le _ _ _ _ (by decide)
  have hf : program .plain (.cycle []) 1 7 fails = .ok (continueFrom 1 7 0 (m.start fails)) :=
    program_of_le _ _ _ _ (by decide)
  have hloops := early_exit_changes_no_outcome .plain (.cycle []) 2 10 loops
  have hfails := early_exit_changes_no_outcome .plain (.cycle []) 1 7 fails
  simp only [hl] at hloops
  simp only [hf] at hfails
  -- The reports are named, or else each look at their soundness runs the programs.
  generalize hr : continueFrom 2 10 0 (m.start loops) = r at hl hloops
  generalize hr' : continueFrom 1 7 0 (m.start fails) = r' at hf hfails
  have hstop : r.stop = .loop := by rw [← hr]; decide +kernel
  have hstop' : r'.stop = .fault (.stackEmpty 0x204) := by rw [← hr']; decide +kernel
  obtain ⟨_, hload, hsound, -, hmore⟩ := hloops
  obtain ⟨_, hload', hsound', -, hmore'⟩ := hfails
  obtain ⟨rfl, -⟩ := Prod.mk.inj ((Machine.load_of_le m (by decide)).symm.trans hload)
  obtain ⟨rfl, -⟩ := Prod.mk.inj ((Machine.load_of_le m (by decide)).symm.trans hload')
  refine ⟨⟨r, hl, ?_, hstop, ?_, hsound, ?_⟩, r', hf, ?_, hstop', ?_, hsound', ?_⟩
  · rw [← hr]; decide +kernel
  · rw [← hr]; decide +kernel
  · exact hmore (by rw [hstop]; decide) 1000 (by decide)
  · rw [← hr']; decide +kernel
  · rw [← hr']; decide +kernel
  · exact hmore' (by rw [hstop']; decide) 1000 (by decide)

end Chip8.Run
