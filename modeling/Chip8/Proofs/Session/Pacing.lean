import Chip8.Proofs.Machine.Loading
import Chip8.Proofs.Number.Rounding
import Chip8.Proofs.Session.Burst
import Chip8.Proofs.Session.Frames

namespace Chip8.Session

open Binary64 (representable_round abs_round_sub_le_of_normal)

variable {n k : Nat} {s s₀ : Session} {m : Machine}

structure Carrying (n : Nat) (s : Session) : Prop where
  active : s.isActive = true
  cpuHz_eq : s.cpuHz = n
  carry_nonneg : 0 ≤ s.carry
  carry_lt : s.carry < 1

/-- What a frame that does not halt makes of its budget: whole steps and a smaller carry, and
nothing is lost between them. -/
theorem Carrying.runFrame (h : s.Carrying n) (hb : 0 ≤ s.budget)
    (hh : s.runFrame.1.halt = none) :
    s.runFrame.1.Carrying n ∧ (s.runFrame.2.1 : Rat) = s.budget.floor ∧
      s.runFrame.1.carry = s.budget - s.budget.floor := by
  have hc : Binary64.sub s.budget s.budget.floor = s.budget - s.budget.floor :=
    ((representable_round _).sub_floor hb).round_eq
  have hf : (0 : Int) ≤ s.budget.floor := Int.floor_nonneg.mpr hb
  simp only [Session.runFrame, h.active, ↓reduceIte, hc] at hh ⊢
  cases hx : (burst s.tracing s.budget.floor.toNat 0 [] s.machine).fault with
  | some o =>
    rw [hx] at hh
    cases hh
  | none =>
    have hr := (burst_kept s.tracing s.budget.floor.toNat 0 [] s.machine).running_eq
    have ha := h.active
    simp only [isActive] at ha
    refine ⟨⟨?_, h.cpuHz_eq, ?_, ?_⟩, ?_, rfl⟩
    · simp only [isActive, Machine.tick, hr, ha]
    · exact sub_nonneg.mpr (Int.floor_le s.budget)
    · exact sub_lt_iff_lt_add'.mpr (Int.lt_floor_add_one s.budget)
    · rw [burst_executed hx, Nat.zero_add]
      exact_mod_cast Int.toNat_of_nonneg hf

theorem halt_runFrame_of_runFrames (h : (runFrames (k + 1) s).1.halt = none) :
    s.runFrame.1.halt = none := by
  cases hh : s.runFrame.1.halt with
  | none => rfl
  | some o =>
    simp only [runFrames, runFrames_of_halt hh k, hh] at h
    cases h

/-- If the budget of every frame is off by at most `ε`, then `k` frames are off by at most `k * ε`.
-/
theorem Carrying.runFrames {ε : Rat} {P : Rat → Prop}
    (hb : ∀ s : Session, s.Carrying n → P s.carry →
      0 ≤ s.budget ∧ |s.budget - (n / 60 + s.carry)| ≤ ε ∧ P (s.budget - s.budget.floor))
    (h : s.Carrying n) (hp : P s.carry) (hh : (runFrames k s).1.halt = none) :
    (runFrames k s).1.Carrying n ∧
      |((runFrames k s).2.sum : Rat) + (runFrames k s).1.carry - (k * n / 60 + s.carry)| ≤
        k * ε := by
  induction k generalizing s with
  | zero => exact ⟨h, by simp [Session.runFrames]⟩
  | succ k ih =>
    obtain ⟨h₀, he, hp'⟩ := hb s h hp
    obtain ⟨hc, hs, hcarry⟩ := h.runFrame h₀ (halt_runFrame_of_runFrames hh)
    rw [← hcarry] at hp'
    obtain ⟨hk, hd⟩ := ih hc hp' hh
    refine ⟨hk, ?_⟩
    have hsplit : ((Session.runFrames (k + 1) s).2.sum : Rat) +
          (Session.runFrames (k + 1) s).1.carry - ((k + 1 : Nat) * n / 60 + s.carry) =
        (((Session.runFrames k s.runFrame.1).2.sum : Rat) +
            (Session.runFrames k s.runFrame.1).1.carry - (k * n / 60 + s.runFrame.1.carry)) +
          (s.budget - (n / 60 + s.carry)) := by
      simp only [Session.runFrames, List.sum_cons, Nat.cast_add, hs, hcarry, Nat.cast_one]
      ring
    rw [hsplit]
    calc _ ≤ k * ε + ε := (abs_add_le _ _).trans (add_le_add hd he)
      _ = (k + 1 : Nat) * ε := by
        push_cast
        ring

/-- How far the budget of one frame can be off. -/
def frameError (n : Nat) : Rat := (n + 20) / (20 * 2 ^ 53)

theorem Carrying.budget_error (h : s.Carrying n) (hn : 1 ≤ n) :
    0 ≤ s.budget ∧ |s.budget - (n / 60 + s.carry)| ≤ frameError n := by
  have hn' : (1 : Rat) ≤ n := by exact_mod_cast hn
  have hsmall : (2 : Rat) ^ (-1022 : Int) ≤ 1 / 64 :=
    (zpow_le_zpow_right₀ one_le_two (by decide : (-1022 : Int) ≤ -6)).trans (by norm_num)
  have hrate := abs_round_sub_le_of_normal (q := n / 60) (by
    rw [abs_of_nonneg (by positivity)]
    linarith)
  rw [abs_of_nonneg (show (0 : Rat) ≤ n / 60 by positivity)] at hrate
  generalize hx : Binary64.round ((n : Rat) / 60) = x at hrate
  obtain ⟨hl, hu⟩ := abs_le.mp hrate
  have hx₀ : 1 / 64 ≤ x := by linarith
  have hc₀ := h.carry_nonneg
  have hc₁ := h.carry_lt
  have hsum := abs_round_sub_le_of_normal (q := x + s.carry) (by
    rw [abs_of_nonneg (by linarith)]
    linarith)
  rw [abs_of_nonneg (show (0 : Rat) ≤ x + s.carry by linarith)] at hsum
  have hbud : s.budget = Binary64.round (x + s.carry) := by
    rw [budget, h.cpuHz_eq, Binary64.div, framesPerSecond, hx, Binary64.add]
  rw [hbud]
  obtain ⟨hl', hu'⟩ := abs_le.mp hsum
  refine ⟨by linarith, abs_le.mpr ⟨?_, ?_⟩⟩ <;> rw [frameError] <;> linarith

/-- With a rate that is a multiple of 15 the budgets are quarters, and rounding keeps them. -/
theorem Carrying.budget_quarter {m : Nat} (h : s.Carrying (15 * m)) (hm : m + 4 ≤ 2 ^ 53)
    (hq : ∃ r : Nat, s.carry = r / 4) :
    s.budget = (15 * m : Nat) / 60 + s.carry ∧ ∃ r : Nat, s.budget - s.budget.floor = r / 4 := by
  obtain ⟨r, hr⟩ := hq
  have hr₄ : r < 4 := by
    have := h.carry_lt
    rw [hr, div_lt_one (by norm_num)] at this
    exact_mod_cast this
  have hquarter (j : Nat) (hj : j < 2 ^ 53) : Binary64.round (j / 4) = j / 4 := by
    refine Binary64.Representable.round_eq ⟨j, -2, ?_, by norm_num, ?_⟩
    · rw [Nat.abs_cast]
      exact_mod_cast hj
    · norm_num [div_eq_mul_inv]
  have hrate : ((15 * m : Nat) : Rat) / 60 = m / 4 := by
    push_cast
    ring
  have hsum : (m : Rat) / 4 + r / 4 = ((m + r : Nat) : Rat) / 4 := by
    push_cast
    ring
  have hbud : s.budget = ((m + r : Nat) : Rat) / 4 := by
    rw [budget, h.cpuHz_eq, framesPerSecond, Binary64.div, hrate, hquarter m (by omega), hr,
      Binary64.add, hsum, hquarter (m + r) (by omega)]
  generalize m + r = j at hbud hsum
  have hfloor : s.budget.floor = (j / 4 : Nat) := by
    rw [hbud]
    exact Rat.floor_natCast_div_natCast j 4
  have hdiv : ((4 * (j / 4) + j % 4 : Nat) : Rat) = j := by rw [Nat.div_add_mod]
  refine ⟨by rw [hbud, hrate, hr, hsum], j % 4, ?_⟩
  rw [hfloor, hbud]
  simp only [Nat.cast_add, Nat.cast_mul, Nat.cast_ofNat] at hdiv
  rw [Int.cast_natCast]
  linarith

theorem carrying_of_load {path : String} {read : Except LoadError Image} {size : Nat}
    (hz : s₀.cpuHz = n) (hl : s₀.load path read = (s, .ok size)) :
    s.Carrying n ∧ s.carry = 0 := by
  obtain ⟨image, -, -, hm⟩ | ⟨e, -, hm⟩ := s₀.freshMachine.load_cases read
  · simp only [load, hm, Prod.mk.injEq] at hl
    obtain ⟨rfl, -⟩ := hl
    exact ⟨⟨rfl, hz, le_rfl, zero_lt_one⟩, rfl⟩
  · simp [load, hm] at hl

/-- The steps of the first `k` frames after a load, at `n` steps a second: off by less than one
step and the errors of `k` frames; as long as these are small, one less than asked for at most,
and that only where a whole number is asked for; exact if the rate is a multiple of 15. -/
theorem frames_total {path : String} {read : Except LoadError Image} {size : Nat} (hn : 1 ≤ n)
    (hz : s₀.cpuHz = n) (hl : s₀.load path read = (s, .ok size))
    (hh : (runFrames k s).1.halt = none) :
    (((runFrames k s).2.sum : Rat) ≤ k * n / 60 + k * frameError n ∧
        (k * n / 60 : Rat) < (runFrames k s).2.sum + 1 + k * frameError n) ∧
      (3 * k * (n + 20) < 2 ^ 53 → (runFrames k s).2.sum = k * n / 60 ∨
        60 ∣ k * n ∧ (runFrames k s).2.sum + 1 = k * n / 60) ∧
      (15 ∣ n → n + 60 ≤ 15 * 2 ^ 53 → (runFrames k s).2.sum = k * n / 60) := by
  obtain ⟨hc, hc₀⟩ := carrying_of_load hz hl
  obtain ⟨hk, hd⟩ := hc.runFrames (P := fun _ ↦ True)
    (fun s h _ ↦ ⟨(h.budget_error hn).1, (h.budget_error hn).2, trivial⟩) trivial hh
  have hexact : 15 ∣ n → n + 60 ≤ 15 * 2 ^ 53 →
      ((runFrames k s).2.sum : Rat) + (runFrames k s).1.carry = k * n / 60 := by
    rintro ⟨m, rfl⟩ hm
    obtain ⟨-, hd'⟩ := hc.runFrames (ε := 0) (P := fun c ↦ ∃ r : Nat, c = r / 4)
      (fun s h hq ↦ by
        obtain ⟨hb, hq'⟩ := h.budget_quarter (by omega) hq
        exact ⟨(h.budget_error hn).1, by rw [hb, sub_self, abs_zero], hq'⟩)
      ⟨0, by rw [hc₀, Nat.cast_zero, zero_div]⟩ hh
    rwa [hc₀, add_zero, mul_zero, abs_nonpos_iff, sub_eq_zero] at hd'
  have hk₀ := hk.carry_nonneg
  have hk₁ := hk.carry_lt
  rw [hc₀, add_zero] at hd
  obtain ⟨hlow, hhigh⟩ := abs_le.mp hd
  generalize (runFrames k s).2.sum = total at hlow hhigh hexact ⊢
  refine ⟨⟨by linarith, by linarith⟩, ?_, ?_⟩
  · intro hsmall
    have he : 60 * (k * frameError n) < 1 := by
      have hs : (3 * k * (n + 20) : Rat) < 2 ^ 53 := by exact_mod_cast hsmall
      rw [frameError]
      linarith
    have hle : ((60 * total : Nat) : Rat) < (k * n + 1 : Nat) := by
      push_cast
      linarith
    have hge : ((k * n : Nat) : Rat) < (60 * total + 61 : Nat) := by
      push_cast
      linarith
    have hle' : 60 * total < k * n + 1 := by exact_mod_cast hle
    have hge' : k * n < 60 * total + 61 := by exact_mod_cast hge
    omega
  · intro hd hm
    have he := hexact hd hm
    have hle : ((60 * total : Nat) : Rat) < (k * n + 1 : Nat) := by
      push_cast
      linarith
    have hge : ((k * n : Nat) : Rat) < (60 * total + 60 : Nat) := by
      push_cast
      linarith
    have hle' : 60 * total < k * n + 1 := by exact_mod_cast hle
    have hge' : k * n < 60 * total + 60 := by exact_mod_cast hge
    omega

theorem frames_total_at_forty :
    ∃ s, (new (some 40) .plain (.cycle [7])).load "rom" (.ok #[0x12, 0x00]) = (s, .ok 2) ∧
      (runFrames 3 s).1.halt = none ∧
      ((runFrames 3 s).2.sum = 2 ∨ 60 ∣ 3 * 40 ∧ (runFrames 3 s).2.sum + 1 = 2) := by
  have hi : (#[0x12, 0x00] : Image).size ≤ Memory.programLimit := by decide
  have hl := load_new 40 .plain (.cycle [7]) "rom" hi
  have hh : (runFrames 3 (loaded 40 .plain (.cycle [7]) "rom" #[0x12, 0x00])).1.halt = none := by
    decide +kernel
  exact ⟨_, hl, hh, (frames_total (n := 40) (by decide) rfl hl hh).2.1 (by decide)⟩

/-- Eleven and two thirds is rounded down, so that the 35th step has to wait for a fourth frame. -/
theorem default_rate_late_after_three_frames :
    ∃ s, (new (some 700) .plain (.cycle [7])).load "rom" (.ok #[0x12, 0x00]) = (s, .ok 2) ∧
      (runFrames 3 s).1.halt = none ∧ (runFrames 3 s).2 = [11, 12, 11] ∧
      (runFrames 3 s).2.sum ≠ 3 * 700 / 60 := by
  have hi : (#[0x12, 0x00] : Image).size ≤ Memory.programLimit := by decide
  have hl := load_new 700 .plain (.cycle [7]) "rom" hi
  obtain ⟨hh, hc⟩ :
      (runFrames 3 (loaded 700 .plain (.cycle [7]) "rom" #[0x12, 0x00])).1.halt = none ∧
        (runFrames 3 (loaded 700 .plain (.cycle [7]) "rom" #[0x12, 0x00])).2 = [11, 12, 11] := by
    decide +kernel
  refine ⟨_, hl, hh, hc, ?_⟩
  rw [hc]
  decide

end Chip8.Session
