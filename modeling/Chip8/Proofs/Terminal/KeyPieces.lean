import Chip8.Terminal.KeyName

namespace Chip8

inductive KeyPiece
  | interrupt
  | sequence (opening : UInt16) (run : List UInt16) (final : UInt16)
  | unfinished (opening : UInt16) (run : List UInt16)
  | escape
  | single (unit : UInt16)
  deriving DecidableEq

namespace KeyPiece

def Opens (u : UInt16) : Prop := u = 0x5B ∨ u = 0x4F

def Closes (u : UInt16) : Prop :=
  0x41 ≤ u.toNat ∧ u.toNat ≤ 0x5A ∨ 0x61 ≤ u.toNat ∧ u.toNat ≤ 0x7A ∨ u = 0x7E

instance (u : UInt16) : Decidable (Closes u) := inferInstanceAs (Decidable (_ ∨ _))

def units : KeyPiece → List UInt16
  | interrupt => [0x03]
  | sequence opening run final => 0x1B :: opening :: (run ++ [final])
  | unfinished opening run => 0x1B :: opening :: run
  | escape => [0x1B]
  | single u => [u]

def Before (rest : List UInt16) : KeyPiece → Prop
  | interrupt => True
  | sequence opening run final => Opens opening ∧ (∀ u ∈ run, ¬Closes u) ∧ Closes final
  | unfinished opening run => Opens opening ∧ (∀ u ∈ run, ¬Closes u) ∧ rest = []
  | escape => ∀ u ∈ rest.head?, ¬Opens u
  | single u => u ≠ 0x03 ∧ u ≠ 0x1B

def functionKeys : List (List UInt16 × String) :=
  [([0x4F, 0x50], "f1"), ([0x4F, 0x51], "f2"), ([0x4F, 0x52], "f3"),
    ([0x5B, 0x31, 0x31, 0x7E], "f1"), ([0x5B, 0x31, 0x32, 0x7E], "f2"),
    ([0x5B, 0x31, 0x33, 0x7E], "f3"), ([0x5B, 0x31, 0x35, 0x7E], "f5")]

def functionName? (us : List UInt16) : Option String :=
  (functionKeys.find? (·.1 == us)).map (·.2)

def names : KeyPiece → List KeyName
  | interrupt => [.text "ctrl-c"]
  | sequence opening run final =>
    ((functionName? (opening :: (run ++ [final]))).map KeyName.text).toList
  | unfinished _ _ => []
  | escape => [.text "escape"]
  | single u => if 0x20 ≤ u ∧ u ≠ 0x7F then [KeyToken.printableName u] else []

inductive Split : List UInt16 → List KeyPiece → Prop
  | nil : Split [] []
  | cons {p : KeyPiece} {rest : List UInt16} {ps : List KeyPiece} (h : p.Before rest)
      (hs : Split rest ps) : Split (p.units ++ rest) (p :: ps)

variable {p q : KeyPiece} {ps qs : List KeyPiece} {us rest rest' run run' : List UInt16}
  {u z z' c : UInt16} {name : String}

theorem run_unique (h : run ++ z :: rest = run' ++ z' :: rest') (hr : ∀ u ∈ run, ¬Closes u)
    (hr' : ∀ u ∈ run', ¬Closes u) (hz : Closes z) (hz' : Closes z') :
    run = run' ∧ z = z' ∧ rest = rest' := by
  induction run generalizing run' with
  | nil =>
    cases run' with
    | nil => simpa using h
    | cons u run' =>
      obtain ⟨rfl, -⟩ := List.cons.inj h
      exact absurd hz (hr' z List.mem_cons_self)
  | cons u run ih =>
    cases run' with
    | nil =>
      obtain ⟨rfl, -⟩ := List.cons.inj h
      exact absurd hz' (hr u List.mem_cons_self)
    | cons u' run' =>
      obtain ⟨rfl, ht⟩ := List.cons.inj h
      obtain ⟨rfl, hrest⟩ := ih ht (fun v hv ↦ hr v (List.mem_cons_of_mem _ hv))
        (fun v hv ↦ hr' v (List.mem_cons_of_mem _ hv))
      exact ⟨rfl, hrest⟩

theorem not_before_escape {us : List UInt16} (hc : Opens c) (he : 0x1B :: c :: us = escape.units ++ rest) :
    ¬escape.Before rest := by
  intro h
  obtain ⟨-, ht⟩ := List.cons.inj he
  exact h c (by rw [← show c :: us = rest from ht]; rfl) hc

theorem sequence_ne_unfinished {c' : UInt16} (hz : Closes z) (hr' : ∀ u ∈ run', ¬Closes u) :
    (sequence c run z).units ++ rest ≠ (unfinished c' run').units ++ [] := by
  intro he
  simp only [units, List.cons_append, List.append_assoc, List.nil_append, List.cons.injEq,
    true_and, List.append_nil] at he
  exact hr' z (by simp [← he.2]) hz

/-- A piece begins with the escape character, or it is one unit other than that. -/
theorem Before.unique (h : p.Before rest) (h' : q.Before rest')
    (he : p.units ++ rest = q.units ++ rest') : p = q ∧ rest = rest' := by
  cases p with
  | interrupt =>
    cases q with
    | interrupt => simpa [units] using he
    | single u => exact absurd (List.cons.inj he).1.symm h'.1
    | _ => simp [units] at he
  | single u =>
    cases q with
    | single v =>
      obtain ⟨rfl, ht⟩ := List.cons.inj he
      exact ⟨rfl, ht⟩
    | interrupt => exact absurd (List.cons.inj he).1 h.1
    | _ => exact absurd (List.cons.inj he).1 h.2
  | sequence c run z =>
    obtain ⟨hc, hr, hz⟩ := h
    cases q with
    | sequence c' run' z' =>
      obtain ⟨-, hr', hz'⟩ := h'
      simp only [units, List.cons_append, List.append_assoc, List.nil_append, List.cons.injEq,
        true_and] at he
      obtain ⟨rfl, rfl, hrest⟩ := run_unique he.2 hr hr' hz hz'
      exact ⟨by rw [he.1], hrest⟩
    | unfinished c' run' =>
      obtain ⟨-, hr', rfl⟩ := h'
      exact absurd he (sequence_ne_unfinished hz hr')
    | escape => exact absurd h' (not_before_escape hc he)
    | interrupt => simp [units] at he
    | single v => exact absurd (List.cons.inj he).1.symm h'.2
  | unfinished c run =>
    obtain ⟨hc, hr, rfl⟩ := h
    cases q with
    | sequence c' run' z' =>
      obtain ⟨-, hr', hz'⟩ := h'
      exact absurd he.symm (sequence_ne_unfinished hz' hr)
    | unfinished c' run' =>
      obtain ⟨-, -, rfl⟩ := h'
      simpa [units] using he
    | escape => exact absurd h' (not_before_escape hc he)
    | interrupt => simp [units] at he
    | single v => exact absurd (List.cons.inj he).1.symm h'.2
  | escape =>
    cases q with
    | sequence c' run' z' => exact absurd h (not_before_escape h'.1 he.symm)
    | unfinished c' run' => exact absurd h (not_before_escape h'.1 he.symm)
    | escape => exact ⟨rfl, (List.cons.inj he).2⟩
    | interrupt => simp [units] at he
    | single v => exact absurd (List.cons.inj he).1.symm h'.2

theorem units_ne_nil (p : KeyPiece) : p.units ≠ [] := by cases p <;> exact List.cons_ne_nil _ _

theorem Split.unique (h : Split us ps) (h' : Split us qs) : ps = qs := by
  induction h generalizing qs with
  | nil =>
    generalize hu : ([] : List UInt16) = us at h'
    cases h' with
    | nil => rfl
    | @cons q rest _ hq hs => exact absurd (List.append_eq_nil_iff.mp hu.symm).1 q.units_ne_nil
  | @cons p rest ps hp hs ih =>
    generalize hu : p.units ++ rest = us at h'
    cases h' with
    | nil => exact absurd (List.append_eq_nil_iff.mp hu).1 p.units_ne_nil
    | cons hq hs' =>
      obtain ⟨rfl, rfl⟩ := hp.unique hq hu
      rw [ih hs']

/-- The text ends with an escape character, or within a sequence that is not finished. -/
def EndsOpen (us : List UInt16) : Prop :=
  us.getLast? = some 0x1B ∨ ∃ ps c run, Split us (ps ++ [unfinished c run])

theorem EndsOpen.cons (hp : p.Before rest) (h : EndsOpen rest) : EndsOpen (p.units ++ rest) := by
  rcases h with h | ⟨ps, c, run, hs⟩
  · left
    rw [List.getLast?_append, h]
    rfl
  · exact .inr ⟨p :: ps, c, run, .cons hp hs⟩

/-- A piece is the same whatever follows, unless the text ends open. -/
theorem Before.append (h : p.Before rest) (hs : Split rest ps) (ho : ¬EndsOpen (p.units ++ rest))
    (us : List UInt16) : p.Before (rest ++ us) := by
  cases p with
  | interrupt => trivial
  | single u => exact h
  | sequence c run z => exact h
  | unfinished c run =>
    obtain ⟨hc, hr, rfl⟩ := h
    exact absurd (.inr ⟨[], c, run, .cons ⟨hc, hr, rfl⟩ .nil⟩) ho
  | escape =>
    cases rest with
    | nil => exact absurd (.inl rfl) ho
    | cons c rest => exact h

theorem Split.append (h : Split us ps) (ho : ¬EndsOpen us) {us' : List UInt16} (h' : Split us' qs) :
    Split (us ++ us') (ps ++ qs) := by
  induction h with
  | nil => exact h'
  | cons hp hs ih =>
    rw [List.append_assoc]
    exact .cons (hp.append hs ho us') (ih fun hr ↦ ho (hr.cons hp))

end KeyPiece

end Chip8
