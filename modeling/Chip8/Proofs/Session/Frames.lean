import Chip8.Proofs.Number.Binary64
import Chip8.Proofs.Run.Pace
import Chip8.Proofs.Session.Burst

namespace Chip8

theorem Timers.toNat_iterate_tick (n : Nat) (t : Timers) :
    (tick^[n] t).delay.toNat = t.delay.toNat - n ∧
      (tick^[n] t).sound.toNat = t.sound.toNat - n := by
  induction n with
  | zero => exact ⟨rfl, rfl⟩
  | succ n ih =>
    rw [Function.iterate_succ_apply', ← Nat.sub_sub, ← Nat.sub_sub, ← ih.1, ← ih.2]
    exact ⟨toNat_countDown _, toNat_countDown _⟩

namespace Session

open Run

variable {every n j k : Nat} {s : Session} {m m' : Machine} {o : Outcome}

def runFrames : Nat → Session → Session × List Nat
  | 0, s => (s, [])
  | k + 1, s =>
    let (s', n, _) := s.runFrame
    let (s'', counts) := runFrames k s'
    (s'', n :: counts)

theorem runFrames_add (j k : Nat) (s : Session) :
    runFrames (j + k) s =
      ((runFrames k (runFrames j s).1).1, (runFrames j s).2 ++ (runFrames k (runFrames j s).1).2) := by
  induction j generalizing s with
  | zero => simp only [Nat.zero_add, runFrames, List.nil_append]
  | succ j ih => simp only [Nat.add_right_comm, runFrames, ih, List.cons_append]

theorem runFrames_of_halt (h : s.halt = some o) (k : Nat) :
    runFrames k s = (s, List.replicate k 0) := by
  induction k with
  | zero => rfl
  | succ k ih => simp only [runFrames, runFrame_of_halt h, ih, List.replicate_succ]

structure Even (every : Nat) (s : Session) : Prop where
  active : s.isActive = true
  cpuHz_eq : s.cpuHz = (60 * every : Nat)
  carry_eq : s.carry = 0
  lt : every < 2 ^ 53

theorem Even.halt_eq (h : s.Even every) : s.halt = none := by
  have ha := h.active
  simp only [isActive, Bool.and_eq_true, Option.isNone_iff_eq_none] at ha
  exact ha.1.2

theorem Even.running_eq (h : s.Even every) : s.machine.running = true := by
  have ha := h.active
  simp only [isActive, Bool.and_eq_true] at ha
  exact ha.2

theorem Even.budget_eq (h : s.Even every) : s.budget = every := by
  have hd : ((60 * every : Nat) : Rat) / 60 = every := by
    rw [Nat.cast_mul]
    exact mul_div_cancel_left₀ _ (by decide)
  rw [budget, h.cpuHz_eq, h.carry_eq, framesPerSecond, Binary64.div, hd,
    Binary64.round_natCast h.lt, Binary64.add, add_zero, Binary64.round_natCast h.lt]

theorem Even.setMachine (h : s.Even every) (hr : m.running = s.machine.running) :
    { s with machine := m }.Even every where
  active := by
    have := h.active
    simp only [isActive] at this ⊢
    rwa [hr]
  cpuHz_eq := h.cpuHz_eq
  carry_eq := h.carry_eq
  lt := h.lt

theorem Even.runFrame_eq (h : s.Even every) :
    s.runFrame =
      let b := burst s.tracing every 0 [] s.machine
      match b.fault with
      | some o =>
        ({ s with machine := b.machine, halt := some o, status := o.description }, b.executed,
          b.lines)
      | none => ({ s with machine := b.machine.tick }, b.executed, b.lines) := by
  have hf : (every : Rat).floor = every := Rat.floor_intCast every
  have hc : Binary64.sub (every : Rat) ((every : Int) : Rat) = s.carry := by
    rw [h.carry_eq, Binary64.sub, Int.cast_natCast, sub_self]
    rfl
  cases hb : (burst s.tracing every 0 [] s.machine).fault <;>
    simp only [runFrame, h.active, ↓reduceIte, h.budget_eq, hf, hc, Int.toNat_natCast, hb]

/-- Steps between two ticks, as a frame makes them. -/
theorem burst_of_paced (h : Paced every n j m m') (hj : j % every + n < every) (tracing : Bool)
    (budget executed : Nat) (lines : List String) :
    ∃ lines', burst tracing (n + budget) executed lines m =
      burst tracing budget (executed + n) lines' m' := by
  induction h generalizing executed lines with
  | zero => exact ⟨lines, by rw [Nat.zero_add, Nat.add_zero]⟩
  | @cons n j m next m' hs h ih =>
    have hj' : j % every + 1 < every := by omega
    rw [tickAfter_of_lt hj'] at ih
    obtain ⟨lines', hb⟩ := ih (by rw [succ_mod_of_lt hj']; omega) (executed + 1)
      (if tracing then m.traceLine?.toList ++ lines else lines)
    refine ⟨lines', ?_⟩
    rw [Nat.add_right_comm, burst, hs, ← Nat.add_assoc, Nat.add_right_comm executed n 1]
    exact hb

theorem Even.runFrame_of_paced (h : s.Even every) (he : 0 < every)
    (hm : Paced every every (every * j) s.machine m') :
    ∃ lines, s.runFrame = ({ s with machine := m' }, every, lines) := by
  cases every with
  | zero => cases he
  | succ e =>
    obtain ⟨m₁, next, h₁, hs, hn⟩ := hm.last
    have hj : (e + 1) * j % (e + 1) + e < e + 1 := by
      rw [Nat.mul_mod_right]
      omega
    obtain ⟨lines, hb⟩ := burst_of_paced h₁ hj s.tracing 1 0 []
    have ht : m' = next.tick := by
      rw [hn, Nat.add_assoc, ← Nat.mul_succ, tickAfter_mul he]
    rw [h.runFrame_eq, hb, ht]
    simp only [burst, hs, Nat.zero_add]
    exact ⟨_, rfl⟩

/-- The failing step gets no tick, even if it is the last one that the frame has room for. -/
theorem Even.runFrame_of_fault (h : s.Even every) (hn : n < every)
    (hm : Paced every n (every * j) s.machine m') (ho : o ≠ .success) (hs : m'.step = (m', o)) :
    ∃ lines, s.runFrame =
      ({ s with machine := m', halt := some o, status := o.description }, n, lines) := by
  obtain ⟨b, rfl⟩ := Nat.exists_eq_add_of_lt hn
  have hj : (n + b + 1) * j % (n + b + 1) + n < n + b + 1 := by
    rw [Nat.mul_mod_right]
    omega
  obtain ⟨lines, hb⟩ := burst_of_paced hm hj s.tracing (b + 1) 0 []
  rw [h.runFrame_eq, Nat.add_assoc, hb, burst, hs, Nat.zero_add]
  cases o with
  | success => exact absurd rfl ho
  | _ => exact ⟨_, rfl⟩

theorem Even.runFrames_of_paced (h : s.Even every) (he : 0 < every) (k j : Nat)
    (hm : Paced every (every * k) (every * j) s.machine m') :
    runFrames k s = ({ s with machine := m' }, List.replicate k every) := by
  induction k generalizing s j with
  | zero =>
    cases hm
    rfl
  | succ k ih =>
    rw [Nat.mul_succ, Nat.add_comm] at hm
    obtain ⟨m₁, h₁, h₂⟩ := hm.split
    obtain ⟨lines, hf⟩ := h.runFrame_of_paced he h₁
    have hk := ih (h.setMachine h₁.running) (j + 1) h₂
    simp only [runFrames, hf, hk, List.replicate_succ]

/-- The frames before the failing step are full, and those after it do nothing. -/
theorem Even.runFrames_of_fault (h : s.Even every) (he : 0 < every) (hn : n < every * k)
    (hm : Paced every n 0 s.machine m') (ho : o ≠ .success) (hs : m'.step = (m', o)) :
    ∃ counts, counts.sum = n ∧
      runFrames k s =
        ({ s with machine := m', halt := some o, status := o.description }, counts) := by
  have hq : n / every < k := Nat.div_lt_of_lt_mul hn
  obtain ⟨b, rfl⟩ := Nat.exists_eq_add_of_lt hq
  have hm' : Paced every (every * (n / every) + n % every) 0 s.machine m' := by
    rwa [Nat.div_add_mod]
  obtain ⟨m₁, h₁, h₂⟩ := hm'.split
  have hfull := h.runFrames_of_paced he (n / every) 0 h₁
  rw [Nat.zero_add] at h₂
  obtain ⟨lines, hf⟩ :=
    (h.setMachine h₁.running).runFrame_of_fault (Nat.mod_lt n he) h₂ ho hs
  have hidle := runFrames_of_halt
    (s := { s with machine := m', halt := some o, status := o.description }) rfl b
  refine ⟨List.replicate (n / every) every ++ n % every :: List.replicate b 0, ?_, ?_⟩
  · rw [List.sum_append, List.sum_cons, List.sum_replicate_nat, List.sum_replicate_nat,
      Nat.mul_zero, Nat.add_zero, Nat.mul_comm, Nat.div_add_mod]
  · rw [Nat.add_assoc, runFrames_add, hfull]
    simp only [runFrames, hf, hidle]

/-- What frames came to, in comparison with the report of a run without a host. A run that stops
at a jump to itself lacks the ticks of the frames that are left. -/
def Matches (every frames : Nat) (r : Run.Report) (s : Session) (counts : List Nat) : Prop :=
  match r.stop with
  | .timeout => s.halt = none ∧ s.machine = r.machine
  | .fault o => s.halt = some o ∧ counts.sum = r.steps ∧ s.machine = r.machine
  | .loop =>
    s.halt = none ∧ s.machine = { r.machine with timers := s.machine.timers } ∧
      s.machine.timers.delay.toNat =
        r.machine.timers.delay.toNat - (frames - r.steps / every) ∧
      s.machine.timers.sound.toNat =
        r.machine.timers.sound.toNat - (frames - r.steps / every)

theorem Even.matches_run (h : s.Even every) (he : 0 < every) (frames : Nat) :
    Matches every frames (continueFrom every (every * frames) 0 s.machine)
      (runFrames frames s).1 (runFrames frames s).2 := by
  have hends := continueFrom_ends every (every * frames) 0 s.machine
  generalize continueFrom every (every * frames) 0 s.machine = r at hends ⊢
  cases hends with
  | timeout hm =>
    rw [h.runFrames_of_paced he frames 0 hm]
    exact ⟨h.halt_eq, rfl⟩
  | @fault n _ _ hm hn ho hs =>
    obtain ⟨counts, hsum, hf⟩ := h.runFrames_of_fault he hn hm ho hs
    rw [hf, Nat.zero_add n]
    exact ⟨rfl, hsum, rfl⟩
  | @loop n m' hm hn hl =>
    -- The frames go on at the jump, so that they are full ones to the end.
    have hrest : Paced every (every * frames - n) (0 + n) m' _ :=
      paced_of_atSelfJump (hm.running.trans h.running_eq) hl _ _
    have hall := hm.trans hrest
    rw [Nat.zero_add, Nat.add_sub_cancel' (Nat.le_of_lt hn), Nat.mul_div_cancel_left _ he] at hall
    rw [h.runFrames_of_paced he frames 0 hall, Nat.zero_add n]
    exact ⟨h.halt_eq, rfl, Timers.toNat_iterate_tick _ _⟩

def loaded (cpuHz : Rat) (dialect : Dialect) (random : RandomSource) (path : String)
    (image : Image) : Session :=
  { new (some cpuHz) dialect random with
    machine := (Machine.new dialect random).start image
    romPath := some path
    status := statusRunning path }

theorem load_new (cpuHz : Rat) (dialect : Dialect) (random : RandomSource) (path : String)
    {image : Image} (hi : image.size ≤ Memory.programLimit) :
    (new (some cpuHz) dialect random).load path (.ok image) =
      (loaded cpuHz dialect random path image, .ok image.size) := by
  simp only [load, Machine.load_of_le _ hi]
  rfl

theorem even_loaded (dialect : Dialect) (random : RandomSource) (path : String) (image : Image)
    (he : 0 < every) (hr : 60 * every < 2 ^ 53) :
    (loaded (60 * every : Nat) dialect random path image).Even every where
  active := rfl
  cpuHz_eq := if_pos (Nat.cast_pos.mpr (Nat.mul_pos (by decide) he))
  carry_eq := rfl
  lt := by omega

/-- A session of `60 * every` steps a second makes the steps of a run without a host that ticks
after every `every` steps, and halts where that fails. -/
theorem frames_match_program (dialect : Dialect) (random : RandomSource) (path : String)
    (image : Image) (every frames : Nat) (hi : image.size ≤ Memory.programLimit) (he : 0 < every)
    (hr : 60 * every < 2 ^ 53) :
    ∃ s r, (new (some (60 * every : Nat)) dialect random).load path (.ok image) =
        (s, .ok image.size) ∧
      program dialect random every (every * frames) image = .ok r ∧
      Matches every frames r (runFrames frames s).1 (runFrames frames s).2 :=
  ⟨_, _, load_new _ dialect random path hi, program_of_le dialect random every _ hi,
    (even_loaded dialect random path image he hr).matches_run he frames⟩

/-- Ten goes to the delay, and the first of three frames comes to a jump to itself. -/
theorem delay_counts_on_after_loop :
    let image : Image := #[0x60, 0x0A, 0xF0, 0x15, 0x12, 0x04]
    ∃ s, (new (some (60 * 2 : Nat)) .plain (.cycle [7])).load "rom" (.ok image) = (s, .ok 6) ∧
      (runFrames 3 s).1.halt = none ∧ (runFrames 3 s).1.machine.timers.delay.toNat = 7 := by
  intro image
  obtain ⟨s, r, hs, hp, hm⟩ := frames_match_program .plain (.cycle [7]) "rom" image 2 3
    (by decide) (by decide) (by decide)
  have hr : (program .plain (.cycle [7]) 2 (2 * 3) image).map
      (fun r ↦ (r.stop, r.steps, r.machine.timers.delay.toNat)) = .ok (.loop, 2, 9) := by
    rw [program_of_le _ _ _ _ (by decide)]
    exact congrArg Except.ok (by decide +kernel)
  rw [hp] at hr
  obtain ⟨hstop, hsteps, hdelay⟩ : r.stop = .loop ∧ r.steps = 2 ∧
      r.machine.timers.delay.toNat = 9 := by
    simpa only [Except.map, Except.ok.injEq, Prod.mk.injEq] using hr
  simp only [Matches, hstop, hsteps, hdelay] at hm
  exact ⟨s, hs, hm.1, hm.2.2.1⟩

end Session

end Chip8
