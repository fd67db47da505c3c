import Chip8.Text.Hex

namespace Chip8.Hex

def isDigit (c : Char) : Bool :=
  (0x30 ≤ c.toNat && c.toNat ≤ 0x39) || (0x41 ≤ c.toNat && c.toNat ≤ 0x46)

def digitValue (c : Char) : Nat := if c.toNat ≤ 0x39 then c.toNat - 0x30 else c.toNat - 0x37

def value (cs : List Char) : Nat := cs.foldl (fun n c ↦ 0x10 * n + digitValue c) 0

def read? (cs : List Char) : Option Nat :=
  if !cs.isEmpty && cs.all isDigit then some (value cs) else none

variable {n width : Nat} {cs : List Char} {c : Char}

def capital (d : Nat) : Char := (Nat.digitChar d).toUpper

theorem isDigit_capital : ∀ d < 16, isDigit (capital d) = true := by decide

theorem digitValue_capital : ∀ d < 16, digitValue (capital d) = d := by decide

theorem digits_of_lt (h : n < 16) : digits n = [capital n] := by
  rw [digits, Nat.toDigits_of_lt_base h]
  rfl

theorem digits_of_le (h : 16 ≤ n) : digits n = digits (n / 16) ++ [capital (n % 16)] := by
  rw [digits, Nat.toDigits_of_base_le (by decide) h, List.map_append]
  rfl

theorem value_concat (cs : List Char) (c : Char) :
    value (cs ++ [c]) = 0x10 * value cs + digitValue c := by
  rw [value, List.foldl_append]
  rfl

theorem value_digits (n : Nat) : value (digits n) = n := by
  induction n using Nat.strongRecOn with
  | ind n ih =>
    rcases Nat.lt_or_ge n 16 with h | h
    · rw [digits_of_lt h]
      exact (Nat.zero_add _).trans (digitValue_capital n h)
    · have hm := digitValue_capital (n % 16) (Nat.mod_lt n (by decide))
      rw [digits_of_le h, value_concat, ih (n / 16) (by omega), hm]
      omega

theorem isDigit_of_mem_digits (h : c ∈ digits n) : isDigit c = true := by
  induction n using Nat.strongRecOn with
  | ind n ih =>
    rcases Nat.lt_or_ge n 16 with hn | hn
    · rw [digits_of_lt hn, List.mem_singleton] at h
      exact h ▸ isDigit_capital n hn
    · rw [digits_of_le hn, List.mem_append, List.mem_singleton] at h
      rcases h with h | rfl
      · exact ih (n / 16) (by omega) h
      · exact isDigit_capital _ (Nat.mod_lt n (by decide))

theorem digits_ne_nil (n : Nat) : digits n ≠ [] := by
  simp [digits, Nat.toDigits_ne_nil]

theorem value_replicate_append (k : Nat) (cs : List Char) :
    value (List.replicate k '0' ++ cs) = value cs := by
  induction k with
  | zero => rfl
  | succ k ih => exact ih

theorem toList_padded : (padded width cs).toList = List.replicate (width - cs.length) '0' ++ cs :=
  String.toList_ofList

theorem isDigit_of_mem_padded (h : c ∈ (padded width (digits n)).toList) : isDigit c = true := by
  rw [toList_padded, List.mem_append, List.mem_replicate] at h
  rcases h with ⟨-, rfl⟩ | h
  · rfl
  · exact isDigit_of_mem_digits h

theorem length_padded_le {k : Nat} (hk : 0 < k) (hw : width ≤ k) (hn : n < Nat.pow 16 k) :
    (padded width (digits n)).toList.length ≤ k := by
  have hl : (digits n).length ≤ k := by
    rw [digits, List.length_map]
    exact (Nat.length_toDigits_le_iff (by decide) hk).mpr hn
  rw [toList_padded, List.length_append, List.length_replicate]
  omega

theorem length_padded (hw : 0 < width) (hn : n < Nat.pow 16 width) :
    (padded width (digits n)).toList.length = width := by
  refine Nat.le_antisymm (length_padded_le hw (Nat.le_refl _) hn) ?_
  rw [toList_padded, List.length_append, List.length_replicate]
  omega

theorem read?_padded (width n : Nat) : read? (padded width (digits n)).toList = some n := by
  have hne : (padded width (digits n)).toList ≠ [] := by
    rw [toList_padded]
    exact List.append_ne_nil_of_right_ne_nil _ (digits_ne_nil n)
  have hall : (padded width (digits n)).toList.all isDigit = true :=
    List.all_eq_true.mpr fun c ↦ isDigit_of_mem_padded
  rw [read?, hall, List.isEmpty_eq_false_iff.mpr hne, toList_padded, value_replicate_append,
    value_digits]
  rfl

theorem padded_digits_inj {n m : Nat} :
    padded width (digits n) = padded width (digits m) ↔ n = m := by
  refine ⟨fun h ↦ ?_, congrArg fun n ↦ padded width (digits n)⟩
  exact Option.some.inj (by rw [← read?_padded width n, h, read?_padded])

variable {a b : Int}

theorem byte_inj : byte a = byte b ↔ a % 0x100 = b % 0x100 := by
  rw [byte, byte, padded_digits_inj]
  omega

theorem read?_byte (n : Int) : read? (byte n).toList = some (n % 0x100).toNat := read?_padded _ _

theorem word_inj : word a = word b ↔ a % 0x10000 = b % 0x10000 := by
  rw [word, word, padded_digits_inj]
  omega

theorem toList_address (a : Int) : ∃ k, (address a).toList =
    List.replicate k '0' ++ if a < 0 then '-' :: digits a.natAbs else digits a.natAbs :=
  ⟨_, toList_padded⟩

theorem value_filter_address (a : Int) : value ((address a).toList.filter isDigit) = a.natAbs := by
  obtain ⟨k, h⟩ := toList_address a
  have hd : (digits a.natAbs).filter isDigit = digits a.natAbs :=
    List.filter_eq_self.mpr fun _ ↦ isDigit_of_mem_digits
  have hs : (if a < 0 then '-' :: digits a.natAbs else digits a.natAbs).filter isDigit =
      digits a.natAbs := by
    split
    · exact (List.filter_cons_of_neg (by decide)).trans hd
    · exact hd
  rw [h, List.filter_append, hs, List.filter_replicate_of_pos (by decide), value_replicate_append,
    value_digits]

theorem minus_mem_address : '-' ∈ (address a).toList ↔ a < 0 := by
  have hd : '-' ∉ digits a.natAbs := fun h ↦ nomatch isDigit_of_mem_digits h
  obtain ⟨k, h⟩ := toList_address a
  rw [h]
  split <;> simp_all

theorem address_inj : address a = address b ↔ a = b := by
  refine ⟨fun h ↦ ?_, congrArg address⟩
  have hn : a.natAbs = b.natAbs := by rw [← value_filter_address, h, value_filter_address]
  have hs : a < 0 ↔ b < 0 := by rw [← minus_mem_address, h, minus_mem_address]
  omega

theorem not_mem_address (hd : isDigit c = false) (hm : c ≠ '-') : c ∉ (address a).toList := by
  have hz : c ≠ '0' := by
    rintro rfl
    cases hd
  have hc : c ∉ digits a.natAbs := fun h ↦ by simp [isDigit_of_mem_digits h] at hd
  obtain ⟨k, h⟩ := toList_address a
  rw [h]
  split <;> simp [hz, hm, hc]

end Chip8.Hex
