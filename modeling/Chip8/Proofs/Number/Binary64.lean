import Mathlib.Data.Rat.Floor
import Chip8.Number.Binary64

namespace Chip8.Binary64

variable {q : Rat} {n : Nat}

theorem twoPow_eq_zpow (e : Int) : twoPow e = 2 ^ e := by
  rw [twoPow]
  split
  · next h =>
    obtain ⟨k, rfl⟩ := Int.eq_ofNat_of_zero_le h
    rw [Int.toNat_natCast, zpow_natCast]
    exact Nat.cast_pow 2 k
  · next h =>
    obtain ⟨k, hk⟩ := Int.eq_ofNat_of_zero_le (show 0 ≤ -e by omega)
    rw [hk, Int.toNat_natCast, ← neg_neg e, hk, zpow_neg, zpow_natCast, Rat.mkRat_eq_div,
      Int.cast_one, one_div]
    exact congrArg _ (Nat.cast_pow 2 k)

@[simp] theorem roundHalfEven_intCast (z : Int) : roundHalfEven z = z := by
  have hh : (0 : Rat) < mkRat 1 2 := by decide
  simp only [roundHalfEven, Rat.floor_intCast, sub_self, hh, ↓reduceIte]

theorem round_of_eq_mul {z : Int} (h : q = z * twoPow (lastPlace q)) : round q = q := by
  have hp : twoPow (lastPlace q) ≠ 0 := by
    rw [twoPow_eq_zpow]
    exact zpow_ne_zero _ two_ne_zero
  have hz : q / twoPow (lastPlace q) = z := (div_eq_iff hp).mpr h
  rw [round, hz, roundHalfEven_intCast, ← h]
  split
  · next hq => exact hq.symm
  · rfl

theorem log2_natCast (hn : n ≠ 0) : log2 n = n.log2 := by
  have hle : ¬(n : Rat) < twoPow n.log2 := by
    rw [twoPow_eq_zpow, zpow_natCast, not_lt]
    exact_mod_cast Nat.log2_self_le hn
  have hm : magnitude n = n := if_neg (not_lt.mpr n.cast_nonneg)
  have he : (((n : Rat).num.natAbs.log2 : Nat) : Int) - ((n : Rat).den.log2 : Nat) = n.log2 := by
    rw [Rat.num_natCast, Rat.den_natCast, Int.natAbs_natCast, show Nat.log2 1 = 0 from rfl]
    exact sub_zero _
  rw [log2, he, hm, if_neg hle]

theorem lastPlace_natCast (hn : n ≠ 0) (h : n < 2 ^ 53) :
    lastPlace n = -((52 - n.log2 : Nat) : Int) := by
  have := (Nat.log2_lt hn).mpr h
  rw [lastPlace, log2_natCast hn]
  omega

theorem round_natCast (h : n < 2 ^ 53) : round n = n := by
  rcases Nat.eq_zero_or_pos n with rfl | hn
  · rfl
  · have hz : (n : Rat) = ((n * 2 ^ (52 - n.log2) : Nat) : Int) * twoPow (lastPlace n) := by
      rw [lastPlace_natCast hn.ne' h, twoPow_eq_zpow, zpow_neg, zpow_natCast]
      push_cast
      exact (mul_inv_cancel_right₀ (pow_ne_zero _ two_ne_zero) _).symm
    exact round_of_eq_mul hz

end Chip8.Binary64
