import Chip8.Proofs.Machine.Present

namespace Chip8

namespace Memory

variable {image : Image} {a k : Nat}

theorem read_loadProgram (m : Memory) (image : Image) (h : a < 0x1000) :
    (m.loadProgram image).read a =
      if a < 0x200 then m.read a else image.getD (a - 0x200) 0 := by
  rw [loadProgram, read_ofFn, cell_natCast h]
  rfl

theorem read_initial (h : a < 0x1000) :
    initial.read a = if 0x050 ≤ a then Glyph.rows.getD (a - 0x050) 0 else 0 := by
  rw [initial, read_ofFn, cell_natCast h]
  rfl

theorem read_program (hi : image.size ≤ programLimit) (h : k < image.size) :
    (initial.loadProgram image).read (0x200 + k : Nat) = image[k] := by
  have hl : programLimit = 0xE00 := rfl
  rw [read_loadProgram _ _ (by omega), if_neg (by omega), Nat.add_sub_cancel_left]
  simp [h]

theorem read_glyph (image : Image) (h : k < Glyph.rows.length) :
    (initial.loadProgram image).read (0x050 + k : Nat) = Glyph.rows[k] := by
  have hl : Glyph.rows.length = 80 := rfl
  rw [read_loadProgram _ _ (by omega), if_pos (by omega), read_initial (by omega),
    if_pos (by omega), Nat.add_sub_cancel_left]
  simp [h]

theorem read_elsewhere (ha : a < 0x1000) (hp : ¬(0x200 ≤ a ∧ a < 0x200 + image.size))
    (hg : ¬(0x050 ≤ a ∧ a < 0x0A0)) : (initial.loadProgram image).read a = 0 := by
  have hl : Glyph.rows.length = 80 := rfl
  rw [read_loadProgram _ _ ha]
  split
  · rw [read_initial ha]
    split
    · rw [List.getD, List.getElem?_eq_none (by omega), Option.getD_none]
    · rfl
  · simp [show ¬a - 0x200 < image.size by omega]

end Memory

namespace Machine

variable {m m' : Machine} {image : Image} {read : Except LoadError Image} {n : Nat}

/-- The program and the glyphs are in memory, and nothing else is left but the keys, the dialect and
the random source of the machine before. -/
structure Started (before : Machine) (image : Image) (m : Machine) : Prop where
  program : ∀ k, (h : k < image.size) → m.memory.read (0x200 + k : Nat) = image[k]
  glyphs : ∀ k, (h : k < Glyph.rows.length) → m.memory.read (0x050 + k : Nat) = Glyph.rows[k]
  zeros : ∀ a < 0x1000, ¬(0x200 ≤ a ∧ a < 0x200 + image.size) → ¬(0x050 ≤ a ∧ a < 0x0A0) →
    m.memory.read a = 0
  registers : ∀ x : Register, m.v.get x = 0
  index : m.index = 0
  stack : m.stack = []
  timers : m.timers.delay = 0 ∧ m.timers.sound = 0
  pixels : ∀ p : Fin 2048, m.screen.frame.get p = false
  pc : m.pc = 0x200
  running : m.running = true
  kept : m.keypad = before.keypad ∧ m.dialect = before.dialect ∧ m.random = before.random

theorem started_start (m : Machine) (h : image.size ≤ Memory.programLimit) :
    Started m image (m.start image) where
  program _ hk := Memory.read_program h hk
  glyphs _ hk := Memory.read_glyph image hk
  zeros _ ha hp hg := Memory.read_elsewhere ha hp hg
  registers x := Vector.getElem_replicate x.isLt
  index := rfl
  stack := rfl
  timers := ⟨rfl, rfl⟩
  pixels p := Vector.getElem_replicate p.isLt
  pc := rfl
  running := rfl
  kept := by simp [start, restart]

/-- A load either starts the program that was read, or changes nothing. -/
theorem load_cases (m : Machine) (read : Except LoadError Image) :
    (∃ image, read = .ok image ∧ image.size ≤ Memory.programLimit ∧
        m.load read = (m.start image, .ok image.size)) ∨
      ∃ e, (∀ image, read = .ok image → Memory.programLimit < image.size) ∧
        m.load read = (m, .error e) := by
  cases read with
  | error e => exact .inr ⟨e, fun _ h ↦ (nomatch h), rfl⟩
  | ok image =>
    rcases Nat.lt_or_ge Memory.programLimit image.size with h | h
    · refine .inr ⟨_, fun i hi ↦ ?_, load_of_lt m h⟩
      cases hi
      exact h
    · exact .inl ⟨image, rfl, h, load_of_le m h⟩

theorem load_eq_ok_iff :
    (m.load read).2 = .ok n ↔
      ∃ image, read = .ok image ∧ image.size ≤ Memory.programLimit ∧ n = image.size := by
  obtain ⟨image, rfl, hi, h⟩ | ⟨e, he, h⟩ := m.load_cases read
  · simp [h, hi, eq_comm]
  · rw [h]
    constructor
    · intro hn
      cases hn
    · rintro ⟨image, hr, hi, -⟩
      exact absurd hi (Nat.not_le.mpr (he image hr))

theorem load_of_error {e : LoadError} (h : (m.load read).2 = .error e) : (m.load read).1 = m := by
  obtain ⟨image, -, -, hl⟩ | ⟨e, -, hl⟩ := m.load_cases read
  · rw [hl] at h
    cases h
  · rw [hl]

/-- Two machines become the same by starting the same program if keys, dialect and the random
numbers that are left are the same. -/
theorem present_start (hk : m.keypad = m'.keypad) (hd : m.dialect = m'.dialect)
    (hr : m.random.left = m'.random.left) (image : Image) :
    (m.start image).present = (m'.start image).present := by
  simp [start, restart, present, Screen.clear, hk, hd, hr]

theorem present_reset {random : RandomSource} (h : m.random.left = random.left)
    (dialect : Dialect) : (m.reset dialect).present = (new dialect random).present := by
  simp [reset, restart, new, present, Screen.clear, Screen.initial, h]

/-- A load that fails changes nothing. One that succeeds leaves the program, the glyphs and zeros,
and like a reset it leaves a machine that does not show its past. -/
theorem load_atomic_and_past_forgotten (m m' : Machine) (read : Except LoadError Image) :
    (∀ e, (m.load read).2 = .error e → (m.load read).1 = m) ∧
      (∀ n, (m.load read).2 = .ok n ↔ ∃ image, read = .ok image ∧ image.size ≤ 3584 ∧
        n = image.size) ∧
      (∀ image, read = .ok image → image.size ≤ 3584 → Started m image (m.load read).1) ∧
      (∀ n, (m.load read).2 = .ok n → m.keypad = m'.keypad → m.dialect = m'.dialect →
        m.random.left = m'.random.left →
        (m'.load read).2 = .ok n ∧ (m.load read).1.Indistinguishable (m'.load read).1) ∧
      ∀ dialect random, m.random.left = random.left →
        (m.reset dialect).Indistinguishable (new dialect random) := by
  refine ⟨fun e ↦ load_of_error, fun n ↦ load_eq_ok_iff, ?_, ?_, ?_⟩
  · rintro image rfl hi
    rw [load_of_le m hi]
    exact started_start m hi
  · intro n hn hk hd hr
    obtain ⟨image, rfl, hi, rfl⟩ := load_eq_ok_iff.mp hn
    rw [load_of_le m hi, load_of_le m' hi]
    exact ⟨rfl, indistinguishable_of_present_eq (present_start hk hd hr image)⟩
  · intro dialect random hr
    exact indistinguishable_of_present_eq (present_reset hr dialect)

/-- The glyph of zero was overwritten and a key moved before the load. -/
theorem load_over_damaged_glyph :
    let m := (new .plain (.cycle [7])).run
      [.load (.ok #[0xC0, 0xFF]), .poke 0x050 0x00, .setFlag 1, .tick, .clearFlag 1, .setKey 3 true]
    let m' := (new .plain (.cycle [7])).run [.setKey 3 true]
    (m.load (.ok #[0x12, 0x00])).2 = .ok 2 ∧ m.keypad = m'.keypad ∧ m.dialect = m'.dialect ∧
      m.random.left = m'.random.left ∧ m.memory.read 0x050 ≠ m'.memory.read 0x050 ∧
      (m.load (.ok #[0x12, 0x00])).1.Indistinguishable (m'.load (.ok #[0x12, 0x00])).1 := by
  intro m m'
  have hn : (m.load (.ok #[0x12, 0x00])).2 = .ok 2 := load_eq_ok_iff.mpr ⟨_, rfl, by decide, rfl⟩
  have hk : m.keypad = m'.keypad := by decide +kernel
  have hd : m.dialect = m'.dialect := by decide +kernel
  have hi : (#[0xC0, 0xFF] : Image).size ≤ Memory.programLimit := by decide
  have hr : m.random.left = m'.random.left := by
    simp [m, m', Machine.apply, setFlag, tick, clearFlag, poke, setKeyNumber, load_of_le _ hi, start,
      restart]
  have hg : m.memory.read 0x050 ≠ m'.memory.read 0x050 := by decide +kernel
  obtain ⟨-, -, -, h, -⟩ := load_atomic_and_past_forgotten m m' (.ok #[0x12, 0x00])
  exact ⟨hn, hk, hd, hr, hg, (h 2 hn hk hd hr).2⟩

end Machine

end Chip8
