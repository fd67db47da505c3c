import Mathlib.Algebra.Order.Field.Power
import Mathlib.Tactic.Linarith
import Mathlib.Tactic.LinearCombination
import Mathlib.Tactic.NormNum
import Mathlib.Tactic.Positivity
import Mathlib.Tactic.Ring
import Chip8.Proofs.Number.Binary64

namespace Chip8.Binary64

variable {q : Rat} {z e : Int}

theorem magnitude_eq_abs (q : Rat) : magnitude q = |q| := by
  rw [magnitude]
  split
  · next h => exact (abs_of_neg h).symm
  · next h => exact (abs_of_nonneg (not_lt.mp h)).symm

theorem abs_eq_div (q : Rat) : |q| = (q.num.natAbs : Rat) / (q.den : Rat) := by
  have h : ((q.num.natAbs : Int) : Rat) = |(q.num : Rat)| := by
    rw [Int.natCast_natAbs, Int.cast_abs]
  rw [← Int.cast_natCast, h, ← abs_of_nonneg (Nat.cast_nonneg (α := Rat) q.den), ← abs_div,
    Rat.num_div_den]

theorem two_pow_log2_le {n : Nat} (h : n ≠ 0) : (2 : Rat) ^ (n.log2 : Int) ≤ n := by
  rw [zpow_natCast]
  exact_mod_cast Nat.log2_self_le h

theorem lt_two_pow_log2 (n : Nat) : (n : Rat) < 2 ^ ((n.log2 : Int) + 1) := by
  have h : n < 2 ^ (n.log2 + 1) := Nat.lt_log2_self
  exact_mod_cast h

/-- The highest binary place is one that the number reaches, and it does not reach the next. -/
theorem zpow_log2 (hq : q ≠ 0) : (2 : Rat) ^ log2 q ≤ |q| ∧ |q| < 2 ^ (log2 q + 1) := by
  have hn : q.num.natAbs ≠ 0 := by simpa using hq
  have hd : (0 : Rat) < q.den := Nat.cast_pos.mpr q.den_pos
  have hnl := two_pow_log2_le hn
  have hnu := lt_two_pow_log2 q.num.natAbs
  have hdl := two_pow_log2_le q.den_nz
  have hdu := lt_two_pow_log2 q.den
  generalize hE : (q.num.natAbs.log2 : Int) - (q.den.log2 : Int) = E
  have hlow : (2 : Rat) ^ (E - 1) < |q| := by
    rw [abs_eq_div, lt_div_iff₀ hd]
    calc (2 : Rat) ^ (E - 1) * q.den
        < 2 ^ (E - 1) * 2 ^ ((q.den.log2 : Int) + 1) := by gcongr
      _ = 2 ^ (q.num.natAbs.log2 : Int) := by
          rw [← zpow_add₀ two_ne_zero, ← hE]
          congr 1
          omega
      _ ≤ q.num.natAbs := hnl
  have hhigh : |q| < 2 ^ (E + 1) := by
    rw [abs_eq_div, div_lt_iff₀ hd]
    calc (q.num.natAbs : Rat)
        < 2 ^ ((q.num.natAbs.log2 : Int) + 1) := hnu
      _ = 2 ^ (E + 1) * 2 ^ (q.den.log2 : Int) := by
          rw [← zpow_add₀ two_ne_zero, ← hE]
          congr 1
          omega
      _ ≤ 2 ^ (E + 1) * q.den := by gcongr
  simp only [log2, hE, magnitude_eq_abs, twoPow_eq_zpow]
  split
  · next h => exact ⟨hlow.le, by rwa [sub_add_cancel]⟩
  · next h => exact ⟨not_lt.mp h, hhigh⟩

theorem log2_le (hq : q ≠ 0) (h : |q| < 2 ^ (e + 1)) : log2 q ≤ e := by
  have h' := (zpow_lt_zpow_iff_right₀ one_lt_two).mp ((zpow_log2 hq).1.trans_lt h)
  omega

theorem le_log2 (hq : q ≠ 0) (h : 2 ^ e ≤ |q|) : e ≤ log2 q := by
  have h' := (zpow_lt_zpow_iff_right₀ one_lt_two).mp (h.trans_lt (zpow_log2 hq).2)
  omega

theorem abs_roundHalfEven_sub_le (q : Rat) : |(roundHalfEven q : Rat) - q| ≤ 1 / 2 := by
  have hf : (q.floor : Rat) ≤ q := Int.floor_le q
  have hc : q < q.floor + 1 := Int.lt_floor_add_one q
  have hh : mkRat 1 2 = (1 / 2 : Rat) := Rat.mkRat_eq_div 1 2
  rw [abs_le]
  simp only [roundHalfEven, hh]
  split
  · constructor <;> linarith
  · split
    · push_cast
      constructor <;> linarith
    · split
      · constructor <;> linarith
      · push_cast
        constructor <;> linarith

theorem abs_roundHalfEven_le (h : |q| ≤ z) : |roundHalfEven q| ≤ z := by
  have hr := abs_roundHalfEven_sub_le q
  have ht := abs_add_le ((roundHalfEven q : Rat) - q) q
  rw [sub_add_cancel] at ht
  have hlt : |(roundHalfEven q : Rat)| < z + 1 := by linarith
  have hlt' : |roundHalfEven q| < z + 1 := by exact_mod_cast hlt
  omega

theorem abs_round_sub_le (q : Rat) : |round q - q| ≤ 2 ^ lastPlace q / 2 := by
  rw [round]
  split
  · next h =>
    rw [h, sub_self, abs_zero]
    positivity
  · have hp : (0 : Rat) < 2 ^ lastPlace q := by positivity
    have h := abs_roundHalfEven_sub_le (q / 2 ^ lastPlace q)
    rw [twoPow_eq_zpow]
    calc |(roundHalfEven (q / 2 ^ lastPlace q) : Rat) * 2 ^ lastPlace q - q|
        = |(roundHalfEven (q / 2 ^ lastPlace q) : Rat) - q / 2 ^ lastPlace q| *
            2 ^ lastPlace q := by
          rw [← abs_of_pos hp, ← abs_mul, abs_of_pos hp, sub_mul, div_mul_cancel₀ _ hp.ne']
      _ ≤ 1 / 2 * 2 ^ lastPlace q := by gcongr
      _ = 2 ^ lastPlace q / 2 := by ring

/-- A number that is not too small loses less than one part in `2 ^ 53`. -/
theorem abs_round_sub_le_of_normal (h : 2 ^ (-1022 : Int) ≤ |q|) :
    |round q - q| ≤ |q| / 2 ^ 53 := by
  have hq : q ≠ 0 := by
    rintro rfl
    rw [abs_zero] at h
    exact absurd h (not_le.mpr (by positivity))
  have hl : -1022 ≤ log2 q := le_log2 hq h
  have hp : lastPlace q = log2 q - 52 := by
    rw [lastPlace]
    omega
  calc |round q - q| ≤ 2 ^ (log2 q - 52) / 2 := hp ▸ abs_round_sub_le q
    _ = 2 ^ log2 q / 2 ^ 53 := by
        rw [zpow_sub₀ two_ne_zero]
        norm_num
        ring
    _ ≤ |q| / 2 ^ 53 := by
        gcongr
        exact (zpow_log2 hq).1

/-- The numbers that rounding gives: up to 53 binary places, the last one not below `2 ^ -1074`. -/
def Representable (q : Rat) : Prop :=
  ∃ z e : Int, |z| < 2 ^ 53 ∧ -1074 ≤ e ∧ q = z * 2 ^ e

theorem Representable.round_eq (h : Representable q) : round q = q := by
  obtain ⟨z, e, hz, he, rfl⟩ := h
  by_cases hq : (z : Rat) * 2 ^ e = 0
  · rw [round, if_pos hq, hq]
  · have hlt : |(z : Rat) * 2 ^ e| < 2 ^ (e + 52 + 1) := by
      have hz' : |(z : Rat)| < 2 ^ (53 : Int) := by exact_mod_cast hz
      rw [abs_mul, abs_of_pos (show (0 : Rat) < 2 ^ e by positivity)]
      calc |(z : Rat)| * 2 ^ e < 2 ^ (53 : Int) * 2 ^ e := by gcongr
        _ = 2 ^ (e + 52 + 1) := by
          rw [← zpow_add₀ two_ne_zero]
          congr 1
          omega
    have hl := log2_le hq hlt
    have hp : lastPlace (z * 2 ^ e) ≤ e := by
      rw [lastPlace]
      omega
    obtain ⟨k, hk⟩ := Int.eq_ofNat_of_zero_le (sub_nonneg.mpr hp)
    refine round_of_eq_mul (z := z * 2 ^ k) ?_
    rw [twoPow_eq_zpow]
    push_cast
    rw [mul_assoc, ← zpow_natCast, ← zpow_add₀ two_ne_zero, ← hk, sub_add_cancel]

theorem representable_of_le (hz : |z| ≤ 2 ^ 53) (he : -1074 ≤ e) :
    Representable (z * 2 ^ e) := by
  rcases hz.lt_or_eq with h | h
  · exact ⟨z, e, h, he, rfl⟩
  · -- One place more is needed, and the last one is zero.
    obtain ⟨w, rfl⟩ : (2 : Int) ∣ z := (dvd_abs 2 z).mp (h ▸ by norm_num)
    refine ⟨w, e + 1, ?_, by omega, ?_⟩
    · rw [abs_mul] at h
      norm_num at h ⊢
      omega
    · rw [zpow_add₀ two_ne_zero]
      push_cast
      ring

theorem representable_round (q : Rat) : Representable (round q) := by
  by_cases hq : q = 0
  · exact ⟨0, 0, by norm_num, by norm_num, by rw [round, if_pos hq]; norm_num⟩
  · rw [round, if_neg hq, twoPow_eq_zpow]
    have hp : (0 : Rat) < 2 ^ lastPlace q := by positivity
    have hle : log2 q - 52 ≤ lastPlace q := le_max_left _ _
    refine representable_of_le ?_ (le_max_right _ _)
    have hx : |q / 2 ^ lastPlace q| < 2 ^ 53 := by
      rw [abs_div, abs_of_pos hp, div_lt_iff₀ hp]
      calc |q| < 2 ^ (log2 q + 1) := (zpow_log2 hq).2
        _ ≤ 2 ^ (53 + lastPlace q) := zpow_le_zpow_right₀ one_le_two (by omega)
        _ = 2 ^ 53 * 2 ^ lastPlace q := by rw [zpow_add₀ two_ne_zero]; rfl
    exact abs_roundHalfEven_le (by exact_mod_cast hx.le)

theorem Representable.sub_floor (h : Representable q) (hq : 0 ≤ q) :
    Representable (q - q.floor) := by
  obtain ⟨z, e, hz, he, rfl⟩ := h
  rcases le_total 0 e with h₀ | h₀
  · -- A number whose last place is not below one is whole.
    obtain ⟨k, rfl⟩ := Int.eq_ofNat_of_zero_le h₀
    have hw : (z : Rat) * 2 ^ (k : Int) = ((z * 2 ^ k : Int) : Rat) := by
      push_cast
      rw [zpow_natCast]
    exact ⟨0, 0, by norm_num, by norm_num, by rw [hw, Rat.floor_intCast]; norm_num⟩
  · obtain ⟨k, hk⟩ := Int.eq_ofNat_of_zero_le (neg_nonneg.mpr h₀)
    have hpos : (0 : Rat) < 2 ^ e := by positivity
    obtain ⟨n, rfl⟩ := Int.eq_ofNat_of_zero_le
      (show 0 ≤ z by exact_mod_cast nonneg_of_mul_nonneg_left hq hpos)
    have hone : (2 : Rat) ^ k * 2 ^ e = 1 := by
      rw [← zpow_natCast, ← hk, ← zpow_add₀ two_ne_zero, neg_add_cancel, zpow_zero]
    have hd : ((n : Int) : Rat) * 2 ^ e = ((n : Int) : Rat) / ((2 ^ k : Nat) : Rat) := by
      rw [eq_div_iff (by positivity)]
      push_cast
      rw [mul_assoc, mul_comm (2 ^ e), hone, mul_one]
    have hf : (((n : Int) : Rat) * 2 ^ e).floor = ((n / 2 ^ k : Nat) : Int) := by
      rw [hd]
      exact Rat.floor_intCast_div_natCast n (2 ^ k)
    have hn : ((2 ^ k * (n / 2 ^ k) + n % 2 ^ k : Nat) : Rat) = n := by rw [Nat.div_add_mod]
    push_cast at hn
    refine ⟨((n % 2 ^ k : Nat) : Int), e, ?_, he, ?_⟩
    · rw [Nat.abs_cast] at hz ⊢
      exact lt_of_le_of_lt (by exact_mod_cast Nat.mod_le n (2 ^ k)) hz
    · rw [hf]
      simp only [Int.cast_natCast]
      linear_combination ((n / 2 ^ k : Nat) : Rat) * hone - (2 : Rat) ^ e * hn

end Chip8.Binary64
