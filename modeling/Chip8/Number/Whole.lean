namespace Chip8

def Whole.exactLimit : Nat := Nat.pow 2 53

/-- A whole number with at most 53 binary places before its last zeros. -/
structure Whole where
  val : Int
  fits : ∃ m k : Nat, m ≤ Whole.exactLimit ∧ val.natAbs = m * Nat.pow 2 k
  deriving DecidableEq, Repr

namespace Whole

def halfEven (n d : Nat) : Nat :=
  if 2 * (n % d) < d then n / d
  else if d < 2 * (n % d) then n / d + 1
  else n / d + n / d % 2

theorem halfEven_le (n d : Nat) : halfEven n d ≤ n / d + 1 := by
  unfold halfEven
  split
  · omega
  · split <;> omega

def unit (n : Nat) : Nat := Nat.pow 2 (n.log2 - 52)

def round (n : Nat) : Nat := if n ≤ exactLimit then n else halfEven n (unit n) * unit n

theorem round_of_le {n : Nat} (h : n ≤ exactLimit) : round n = n := if_pos h

theorem quotient_lt (n : Nat) : n / unit n < exactLimit := by
  refine Nat.div_lt_of_lt_mul (Nat.lt_of_lt_of_le (Nat.lt_log2_self (n := n)) ?_)
  have h : Nat.pow 2 (n.log2 - 52) * Nat.pow 2 53 = Nat.pow 2 (n.log2 - 52 + 53) :=
    (Nat.pow_add 2 _ _).symm
  rw [unit, exactLimit, h]
  exact Nat.pow_le_pow_right (by decide) (by omega)

theorem fits_round (n : Nat) : ∃ m k : Nat, m ≤ exactLimit ∧ round n = m * Nat.pow 2 k := by
  by_cases h : n ≤ exactLimit
  · exact ⟨n, 0, h, by rw [round_of_le h]; exact (Nat.mul_one n).symm⟩
  · refine ⟨halfEven n (unit n), n.log2 - 52, ?_, by rw [round, if_neg h, unit]⟩
    have := halfEven_le n (unit n)
    have := quotient_lt n
    omega

def nearest (n : Int) : Whole where
  val := if n < 0 then -(round n.natAbs : Nat) else (round n.natAbs : Nat)
  fits := by
    have h : (if n < 0 then -((round n.natAbs : Nat) : Int) else (round n.natAbs : Nat)).natAbs =
        round n.natAbs := by
      split
      · rw [Int.natAbs_neg, Int.natAbs_natCast]
      · rw [Int.natAbs_natCast]
    rw [h]
    exact fits_round n.natAbs

theorem val_nearest_of_le {n : Int} (h : n.natAbs ≤ exactLimit) : (nearest n).val = n := by
  simp only [nearest, round_of_le h]
  omega

def sum (a b : Nat) : Nat := round (a + b)

theorem sum_of_le {a b : Nat} (h : a + b ≤ exactLimit) : sum a b = a + b := round_of_le h

end Whole

end Chip8
