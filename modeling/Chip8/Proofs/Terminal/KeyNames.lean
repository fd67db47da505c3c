import Chip8.Keyboard
import Chip8.Terminal.KeyName

namespace Chip8

namespace Text

variable {n : Nat}

theorem lowercaseCode_cases (n : Nat) :
    (∃ r ∈ caseRuns, r.first ≤ n ∧ n ≤ r.last ∧ lowercaseCode n = (n + r.shift).toNat) ∨
      (∀ r ∈ caseRuns, r.contains n = false) ∧ lowercaseCode n = n := by
  unfold lowercaseCode
  cases hf : caseRuns.find? (·.contains n) with
  | none =>
    rw [List.find?_eq_none] at hf
    exact .inr ⟨fun r hr ↦ Bool.eq_false_iff.mpr (hf r hr), rfl⟩
  | some r =>
    have hc := List.find?_some hf
    simp only [CaseRun.contains, Bool.and_eq_true, decide_eq_true_eq] at hc
    exact .inl ⟨r, List.mem_of_find?_eq_some hf, hc.1.1, hc.1.2, rfl⟩

theorem lowercaseCode_not_capital (n : Nat) :
    ¬(0x41 ≤ lowercaseCode n ∧ lowercaseCode n ≤ 0x5A) := by
  have himage : ∀ r ∈ caseRuns, 0x5A < r.first + r.shift := by decide +kernel
  rintro ⟨hl, hu⟩
  obtain ⟨r, hr, hf, -, hn⟩ | ⟨hall, hn⟩ := lowercaseCode_cases n
  · have := himage r hr
    omega
  · have hc := hall ⟨0x41, 0x5A, 1, 32⟩ (List.mem_cons_self ..)
    rw [hn] at hl hu
    simp [CaseRun.contains, hl, hu, Nat.mod_one] at hc

/-- Up to the letter z, only capitals and one sign for `k` have a small form other than
themselves. -/
theorem eq_of_lowercaseCode (hn : ¬(0x41 ≤ n ∧ n ≤ 0x5A)) (hz : lowercaseCode n ≤ 0x7A)
    (hk : lowercaseCode n ≠ 0x6B) : lowercaseCode n = n := by
  have hruns : ∀ r ∈ caseRuns, (0x41 ≤ r.first ∧ r.last ≤ 0x5A) ∨ 0x7A < r.first + r.shift ∨
      r.first = r.last ∧ r.first + r.shift = 0x6B := by decide +kernel
  obtain ⟨r, hr, hf, hl, he⟩ | ⟨-, he⟩ := lowercaseCode_cases n
  · have := hruns r hr
    omega
  · exact he

theorem toNat_charOfNat (n : Nat) : (Char.ofNat n).toNat = n ∨ (Char.ofNat n).toNat = 0 := by
  by_cases h : n.isValidChar
  · rw [Char.ofNat, dif_pos h]
    exact .inl rfl
  · rw [Char.ofNat, dif_neg h]
    exact .inr rfl

theorem lowercaseChar_cases (c : Char) :
    lowercaseChar c = ['i', Char.ofNat 0x307] ∨ ∃ d, lowercaseChar c = [d] := by
  unfold lowercaseChar
  split
  · exact .inl rfl
  · exact .inr ⟨_, rfl⟩

theorem lowercase_ofList_singleton (c : Char) :
    lowercase (String.ofList [c]) = String.ofList (lowercaseChar c) := by
  simp [lowercase]

theorem lowercaseChar_eq_self {c d e : Char} (hd : lowercaseChar c = [d])
    (he : lowercaseChar d = [e]) (h₀ : e.toNat ≠ 0) (hz : e.toNat ≤ 0x7A) (hk : e.toNat ≠ 0x6B) :
    e = d := by
  unfold lowercaseChar at hd he
  split at hd
  · cases hd
  split at he
  · cases he
  have hcapital := lowercaseCode_not_capital c.toNat
  have hsmall := toNat_charOfNat (lowercaseCode c.toNat)
  have hsame := toNat_charOfNat (lowercaseCode d.toNat)
  rw [List.singleton_inj.mp hd] at hsmall
  rw [List.singleton_inj.mp he] at hsame
  obtain hsame | hsame := hsame
  · rw [hsame] at hz hk
    rw [← Char.toNat_inj, hsame]
    exact eq_of_lowercaseCode (by omega) hz hk
  · exact absurd hsame h₀

end Text

namespace Keyboard

variable {name : String} {k : Key} {us : List UInt16} {u : UInt16}

theorem mem_of_lookup {β : Type} {ps : List (String × β)} {b : β}
    (h : ps.lookup name = some b) : (name, b) ∈ ps := by
  obtain ⟨before, after, rfl, -⟩ := List.lookup_eq_some_iff.mp h
  exact List.mem_append_right before (List.mem_cons_self ..)

theorem keyFor?_of_commandFor? {c : HostCommand} (hc : commandFor? name = some c) :
    keyFor? name = none := by
  have hall : ∀ p ∈ commands, keys.lookup p.1 = none := by decide
  exact hall _ (mem_of_lookup hc)

theorem mem_keys_of_printable (hu : KeyToken.printableName u = .text name)
    (hk : keyFor? name = some k) : (name, k) ∈ keys := by
  have hchars : ∀ p ∈ keys,
      p.1.toList.all fun c ↦ c.toNat ≠ 0 ∧ c.toNat ≤ 0x7A ∧ c.toNat ≠ 0x6B := by decide
  have hdotted : keys.lookup (Text.lowercase (String.ofList ['i', Char.ofNat 0x307])) = none ∧
      keys.lookup (String.ofList ['i', Char.ofNat 0x307]) = none := by decide +kernel
  unfold KeyToken.printableName at hu
  split at hu
  · cases hu
  obtain rfl := KeyName.text.inj hu
  rw [keyFor?] at hk
  obtain hd | ⟨d, hd⟩ := Text.lowercaseChar_cases (Char.ofNat u.toNat)
  · rw [hd, hdotted.1] at hk
    cases hk
  rw [hd, Text.lowercase_ofList_singleton] at hk
  rw [hd]
  obtain he | ⟨e, he⟩ := Text.lowercaseChar_cases d
  · rw [he, hdotted.2] at hk
    cases hk
  rw [he] at hk
  have hm := mem_of_lookup hk
  obtain ⟨h₀, hz, hne⟩ := of_decide_eq_true (List.all_eq_true.mp (hchars _ hm) e (by simp))
  rwa [Text.lowercaseChar_eq_self hd he h₀ hz hne] at hm

theorem name_mem_of_afterEscape (h : (KeyToken.afterEscape us).1 = .function name) :
    name ∈ KeyToken.functions.map Prod.snd := by
  unfold KeyToken.afterEscape at h
  split at h
  · next hf =>
    obtain ⟨p, hp, hs⟩ := List.exists_of_findSome?_eq_some hf
    simp only [Option.ite_none_right_eq_some, Option.some.injEq, Prod.mk.injEq] at hs
    rw [← KeyToken.function.inj h, ← hs.2.1]
    exact List.mem_map_of_mem hp
  · split at h
    · split at h <;> cases h
    · cases h

theorem name_mem_of_first (h : (KeyToken.first u us).1 = .function name) :
    name ∈ KeyToken.functions.map Prod.snd := by
  unfold KeyToken.first at h
  split at h
  · cases h
  split at h
  · exact name_mem_of_afterEscape h
  · split at h <;> cases h

theorem name_mem_of_split (h : KeyToken.function name ∈ KeyToken.split us) :
    name ∈ KeyToken.functions.map Prod.snd := by
  induction us using KeyToken.split.induct with
  | case1 => simp [KeyToken.split] at h
  | case2 u us ih =>
    rw [KeyToken.split] at h
    obtain hf | ht := List.mem_cons.mp h
    · exact name_mem_of_first hf.symm
    · exact ih ht

/-- The keys of the keypad come under the names that the table gives them. -/
theorem mem_keys_of_received {text : String} (hn : .text name ∈ KeyName.ofString text)
    (hk : keyFor? name = some k) : (name, k) ∈ keys := by
  have hfunctions : ∀ name ∈ KeyToken.functions.map Prod.snd, keyFor? name = none := by decide
  obtain ⟨token, ht, hname⟩ := List.mem_filterMap.mp hn
  cases token with
  | interrupt =>
    obtain rfl := KeyName.text.inj (Option.some.inj hname)
    rw [show keyFor? "ctrl-c" = none by decide] at hk
    cases hk
  | function n =>
    obtain rfl := KeyName.text.inj (Option.some.inj hname)
    rw [hfunctions _ (name_mem_of_split ht)] at hk
    cases hk
  | unmapped => cases hname
  | escape =>
    obtain rfl := KeyName.text.inj (Option.some.inj hname)
    rw [show keyFor? "escape" = none by decide] at hk
    cases hk
  | printable u => exact mem_keys_of_printable (Option.some.inj hname) hk
  | control u => cases hname

/-- Only `A` stands in two places of the keyboard. -/
theorem name_unique {name' : String} (h : (name, k) ∈ keys) (h' : (name', k) ∈ keys)
    (hk : k ≠ 0xA) : name = name' := by
  have hall : ∀ p ∈ keys, ∀ q ∈ keys, p.2 = q.2 → p.2 ≠ 0xA → p.1 = q.1 := by decide
  exact hall _ h _ h' rfl hk

end Keyboard

end Chip8
