import Chip8.Number.Notation
import Chip8.Text.Fields
import Mathlib.Tactic.Ring

namespace Chip8.Whole

variable {n m d d' k e zeros zeros' : Nat} {c : Char} {ds : List Char}

section Rounding

theorem halfEven_eq_or (n d : Nat) : halfEven n d = n / d ∨ halfEven n d = n / d + 1 := by
  unfold halfEven
  split
  · exact .inl rfl
  · split
    · exact .inr rfl
    · omega

theorem round_of_unit_dvd (h : unit n ∣ n) : round n = n := by
  have hu : 0 < unit n := Nat.pow_pos Nat.two_pos
  rw [round]
  split
  · rfl
  · rw [halfEven, Nat.mod_eq_zero_of_dvd h, if_pos (by omega), Nat.div_mul_cancel h]

theorem unit_dvd (hm : m < exactLimit) : unit (m * 2 ^ k) ∣ m * 2 ^ k := by
  rcases Nat.eq_zero_or_pos m with rfl | h
  · rw [Nat.zero_mul]
    exact Nat.dvd_zero _
  · have hk : (m * 2 ^ k).log2 - 52 ≤ k := by
      have hlt : m * 2 ^ k < 2 ^ (53 + k) := by
        rw [Nat.pow_add]
        exact Nat.mul_lt_mul_of_pos_right hm (Nat.pow_pos Nat.two_pos)
      have := (Nat.log2_lt (Nat.mul_pos h (Nat.pow_pos Nat.two_pos)).ne').mpr hlt
      omega
    exact (Nat.pow_dvd_pow 2 hk).trans (Nat.dvd_mul_left _ _)

theorem round_natAbs (w : Whole) : round w.val.natAbs = w.val.natAbs := by
  obtain ⟨m, k, hm, hn⟩ := w.fits
  rw [hn]
  refine round_of_unit_dvd ?_
  rcases Nat.lt_or_eq_of_le hm with hm | rfl
  · exact unit_dvd hm
  · -- The limit itself has one place more than the others, and the last is zero.
    have hl : exactLimit * Nat.pow 2 k = 2 ^ 52 * 2 ^ (k + 1) := by
      rw [exactLimit, Nat.pow_eq, Nat.pow_eq]
      ring
    rw [hl]
    exact unit_dvd (by decide)

theorem round_multiple? (h : multiple? n e = some d) : round (d * 10 ^ e) = n := by
  simp only [multiple?] at h
  split at h
  · next hb ha =>
    cases h
    rcases halfEven_eq_or n (Nat.pow 10 e) with hd | hd <;> rw [hd]
    · exact eq_of_beq hb
    · exact eq_of_beq ha
  · next hb _ =>
    cases h
    exact eq_of_beq hb
  · next _ ha =>
    cases h
    exact eq_of_beq ha
  · cases h

theorem round_shortest (h : shortest n e = (d, zeros)) (hn : round n = n) :
    round (d * 10 ^ zeros) = n := by
  induction e with
  | zero =>
    cases h
    rwa [Nat.pow_zero, Nat.mul_one]
  | succ e ih =>
    rw [shortest] at h
    split at h
    · next hd =>
      cases h
      exact round_multiple? hd
    · exact ih h

end Rounding

section Digits

def written (d zeros : Nat) : List Char :=
  let ds := Nat.toDigits 10 d
  if ds.length + zeros ≤ plainDigits then ds ++ List.replicate zeros '0' else scientific ds zeros

theorem toList_toString (n : Nat) : (toString n).toList = Nat.toDigits 10 n := Nat.toList_repr

theorem toDigits_inj (h : Nat.toDigits 10 n = Nat.toDigits 10 m) : n = m := by
  rw [← Nat.ofDigitChars_ten_toDigits (n := n), h, Nat.ofDigitChars_ten_toDigits]

theorem isDigit_of_mem_toDigits (n : Nat) : ∀ c ∈ Nat.toDigits 10 n, c.isDigit = true :=
  fun _ ↦ Nat.isDigit_of_mem_toDigits (by decide) le_rfl

theorem exists_chars_eq (hn : round n = n) :
    ∃ d zeros, round (d * 10 ^ zeros) = n ∧ chars n = written d zeros := by
  rw [chars, toList_toString]
  split
  · next h =>
    -- Sixteen digits at most.
    have hl : (Nat.toDigits 10 n).length ≤ 16 :=
      (Nat.length_toDigits_le_iff (by decide) (by decide)).mpr (Nat.lt_of_le_of_lt h (by decide))
    refine ⟨n, 0, by rwa [Nat.pow_zero, Nat.mul_one], ?_⟩
    rw [written, if_pos (by rw [plainDigits]; omega), List.replicate_zero, List.append_nil]
  · cases hs : shortest n (Nat.toDigits 10 n).length with
    | mk d zeros =>
      refine ⟨d, zeros, round_shortest hs hn, ?_⟩
      simp only [written, toList_toString]

theorem exists_scientific_eq (h : ∀ c ∈ ds, c.isDigit = true) (zeros : Nat) :
    ∃ mantissa, scientific ds zeros =
        mantissa ++ 'e' :: '+' :: Nat.toDigits 10 (ds.length + zeros - 1) ∧
      mantissa.filter Char.isDigit = ds ∧ ∀ c ∈ mantissa, c.isDigit = true ∨ c = '.' := by
  refine ⟨ds.take 1 ++ (if ds.length ≤ 1 then [] else ['.']) ++ ds.tail, ?_, ?_, ?_⟩
  · rw [scientific, toList_toString]
    simp only [List.append_assoc, List.cons_append, List.nil_append]
  · have hp : (if ds.length ≤ 1 then [] else ['.']).filter Char.isDigit = [] := by split <;> rfl
    rw [List.filter_append, List.filter_append, hp, List.append_nil, ← List.filter_append,
      ← List.drop_one, List.take_append_drop]
    exact List.filter_eq_self.mpr h
  · intro c hc
    rw [List.mem_append, List.mem_append] at hc
    rcases hc with (hc | hc) | hc
    · exact .inl (h c (List.mem_of_mem_take hc))
    · refine .inr ?_
      split at hc
      · cases hc
      · exact List.mem_singleton.mp hc
    · exact .inl (h c (List.mem_of_mem_tail hc))

theorem mem_written (h : c ∈ written d zeros) : c.isDigit = true ∨ c ∈ ['.', 'e', '+'] := by
  rw [written] at h
  split at h
  · rcases List.mem_append.mp h with h | h
    · exact .inl (isDigit_of_mem_toDigits _ _ h)
    · exact .inl ((List.mem_replicate.mp h).2 ▸ rfl)
  · obtain ⟨mantissa, hs, -, hm⟩ := exists_scientific_eq (isDigit_of_mem_toDigits d) zeros
    rw [hs, List.mem_append, List.mem_cons, List.mem_cons] at h
    rcases h with h | rfl | rfl | h
    · rcases hm c h with h | rfl
      · exact .inl h
      · exact .inr List.mem_cons_self
    · exact .inr (by decide)
    · exact .inr (by decide)
    · exact .inl (isDigit_of_mem_toDigits _ _ h)

theorem eq_of_scientific_eq
    (h : scientific (Nat.toDigits 10 d) zeros = scientific (Nat.toDigits 10 d') zeros') :
    d = d' ∧ zeros = zeros' := by
  obtain ⟨m, hs, hf, hm⟩ := exists_scientific_eq (isDigit_of_mem_toDigits d) zeros
  obtain ⟨m', hs', hf', hm'⟩ := exists_scientific_eq (isDigit_of_mem_toDigits d') zeros'
  have he : 'e' ∉ m := fun h ↦ by simpa using hm _ h
  have he' : 'e' ∉ m' := fun h ↦ by simpa using hm' _ h
  rw [hs, hs', Text.append_cons_inj he he', List.cons.injEq] at h
  obtain ⟨rfl, -, h⟩ := h
  have hd : d = d' := toDigits_inj (hf.symm.trans hf')
  have hl := toDigits_inj h
  have hpos : 0 < (Nat.toDigits 10 d).length := Nat.length_toDigits_pos
  subst hd
  exact ⟨rfl, by omega⟩

theorem not_e_mem_plain : 'e' ∉ Nat.toDigits 10 d ++ List.replicate zeros '0' := by
  intro h
  rcases List.mem_append.mp h with h | h
  · cases isDigit_of_mem_toDigits _ _ h
  · cases (List.mem_replicate.mp h).2

theorem e_mem_scientific (ds : List Char) (zeros : Nat) : 'e' ∈ scientific ds zeros := by
  simp [scientific]

theorem eq_of_written_eq (h : written d zeros = written d' zeros') :
    d * 10 ^ zeros = d' * 10 ^ zeros' := by
  have value (d zeros : Nat) :
      Nat.ofDigitChars 10 (Nat.toDigits 10 d ++ List.replicate zeros '0') 0 = d * 10 ^ zeros := by
    rw [Nat.ofDigitChars_append, Nat.ofDigitChars_ten_toDigits, Nat.ofDigitChars_replicate_zero,
      Nat.mul_comm]
  simp only [written] at h
  split at h <;> split at h
  · rw [← value, h, value]
  · exact absurd (h ▸ e_mem_scientific _ _) not_e_mem_plain
  · exact absurd (h ▸ e_mem_scientific _ _) not_e_mem_plain
  · obtain ⟨rfl, rfl⟩ := eq_of_scientific_eq h
    rfl

theorem eq_of_chars_eq (hn : round n = n) (hm : round m = m) (h : chars n = chars m) : n = m := by
  obtain ⟨d, zeros, hd, hc⟩ := exists_chars_eq hn
  obtain ⟨d', zeros', hd', hc'⟩ := exists_chars_eq hm
  rw [hc, hc'] at h
  rw [← hd, eq_of_written_eq h, hd']

theorem not_mem_chars (w : Whole) (hd : c.isDigit = false) (hs : c ∉ ['.', 'e', '+']) :
    c ∉ chars w.val.natAbs := by
  obtain ⟨d, zeros, -, hc⟩ := exists_chars_eq w.round_natAbs
  intro h
  rcases mem_written (hc ▸ h) with h | h
  · exact absurd h (Bool.eq_false_iff.mp hd)
  · exact hs h

end Digits

theorem text_inj {a b : Whole} : a.text = b.text ↔ a = b := by
  refine ⟨fun h ↦ ?_, congrArg text⟩
  have hc (h : chars a.val.natAbs = chars b.val.natAbs) : a.val.natAbs = b.val.natAbs :=
    eq_of_chars_eq a.round_natAbs b.round_natAbs h
  have hv : a.val = b.val := by
    have h := String.ofList_injective h
    split at h <;> split at h
    · have := hc (List.cons.inj h).2
      omega
    · exact absurd (h ▸ List.mem_cons_self) (b.not_mem_chars rfl (by decide))
    · exact absurd (h ▸ List.mem_cons_self) (a.not_mem_chars rfl (by decide))
    · have := hc h
      omega
  cases a
  cases b
  congr

theorem blank_not_mem_text (w : Whole) : ' ' ∉ w.text.toList := by
  have hc := w.not_mem_chars (c := ' ') rfl (by decide)
  rw [text, String.toList_ofList]
  split
  · exact List.not_mem_cons_of_ne_of_not_mem (by decide) hc
  · exact hc

end Chip8.Whole
