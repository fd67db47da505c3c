import Chip8.Number.Decimal
import Chip8.Proofs.Number.Rounding

namespace Chip8

namespace Binary64

variable {q r : Rat} {m : Nat} {e : Int}

structure Finite (q : Rat) : Prop where
  representable : Representable q
  bounded : |q| < 2 ^ 1024

theorem Representable.neg (h : Representable q) : Representable (-q) := by
  obtain ⟨z, e, hz, he, rfl⟩ := h
  exact ⟨-z, e, by rwa [abs_neg], he, by rw [Int.cast_neg, neg_mul]⟩

theorem Finite.neg (h : Finite q) : Finite (-q) :=
  ⟨h.representable.neg, by rw [abs_neg]; exact h.bounded⟩

theorem finite_natCast (h : m < 2 ^ 53) : Finite m where
  representable := ⟨m, 0, by rw [Nat.abs_cast]; exact_mod_cast h, by omega, by simp⟩
  bounded := by
    rw [Nat.abs_cast]
    calc (m : Rat) < 2 ^ 53 := by exact_mod_cast h
      _ ≤ 2 ^ 1024 := pow_le_pow_right₀ one_le_two (by omega)

theorem round_eq_of_ofRat? (h : ofRat? q = some r) : round q = r := by
  rw [ofRat?] at h
  split at h
  · exact Option.some.inj h
  · cases h

theorem finite_of_ofRat? (h : ofRat? q = some r) : Finite r := by
  have hr := round_eq_of_ofRat? h
  refine ⟨hr ▸ representable_round q, ?_⟩
  rw [ofRat?, hr, magnitude_eq_abs, twoPow_eq_zpow] at h
  split at h
  · next hlt => exact_mod_cast hlt
  · cases h

theorem finite_of_ofDecimal? (h : ofDecimal? m e = some r) : Finite r := by
  have hzero : Finite (0 : Rat) := by exact_mod_cast finite_natCast (m := 0) (by norm_num)
  unfold ofDecimal? at h
  split at h
  · cases h
    exact hzero
  · split at h
    · cases h
    · split at h
      · cases h
        exact hzero
      · split at h
        · exact finite_of_ofRat? h
        · exact finite_of_ofRat? h

theorem exists_round_intCast (z : Int) : ∃ w : Int, round z = w := by
  rcases le_total 0 (lastPlace z) with hp | hp
  · obtain ⟨k, hk⟩ := Int.eq_ofNat_of_zero_le hp
    rw [round]
    split
    · exact ⟨0, Int.cast_zero.symm⟩
    · refine ⟨roundHalfEven (z / twoPow (lastPlace z)) * 2 ^ k, ?_⟩
      rw [twoPow_eq_zpow, hk, zpow_natCast]
      push_cast
      rfl
  · -- A place behind the point is one that a whole number does not need.
    obtain ⟨k, hk⟩ := Int.eq_ofNat_of_zero_le (neg_nonneg.mpr hp)
    refine ⟨z, round_of_eq_mul (z := z * 2 ^ k) ?_⟩
    rw [twoPow_eq_zpow, ← neg_neg (lastPlace z), hk, zpow_neg, zpow_natCast]
    push_cast
    exact (mul_inv_cancel_right₀ (pow_ne_zero k two_ne_zero) _).symm

end Binary64

namespace Decimal

open Binary64

variable {s : String} {q : Rat}

theorem finite_of_leadingNumber? (h : leadingNumber? s = some q) : Finite q := by
  obtain ⟨d, -, hd⟩ := Option.bind_eq_some_iff.mp h
  obtain ⟨r, hr, rfl⟩ := Option.map_eq_some_iff.mp hd
  have hf := finite_of_ofDecimal? hr
  split
  · exact hf.neg
  · exact hf

theorem finite_of_leadingWhole? (h : leadingWhole? s = some q) : Finite q ∧ ∃ w : Int, q = w := by
  obtain ⟨n, -, hn⟩ := Option.bind_eq_some_iff.mp h
  obtain ⟨w, hw⟩ := exists_round_intCast n
  exact ⟨finite_of_ofRat? hn, w, (round_eq_of_ofRat? hn).symm.trans hw⟩

end Decimal

end Chip8
